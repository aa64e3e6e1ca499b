import LibEmbedding.TextModels

/-!
# Choosing a quantization variant

`lembed_quantization_auto_select`: a decision stored for the model's code, or else the
decision that the measurements of the variants on disk give. The creator that takes a mode
loads the entry that provides it.
-/

namespace LibEmbedding

open Foundation

/-- `lembed_quantization_measurement_t` -/
structure QuantizationMeasurement where
  quantization : Int
  docsPerSec : ℚ
  latencyMs : ℚ
  fileMb : ℚ
  deriving DecidableEq

/-- `lembed_quantization_choice_t` -/
structure QuantizationChoice where
  quantization : Int
  variantModel : Int
  fromCache : Bool
  reason : Bytes
  measured : List QuantizationMeasurement
  deriving DecidableEq

def quantMinGain : ℚ := 105 / 100

def quantDynamicPreference : ℚ := 115 / 100

def quantMaxVariants : Nat := 4

def measureDocs : Int := 16

-- ---------------------------------------------------------------------------
-- The decision
-- ---------------------------------------------------------------------------

/-- The rate of the last row that was measured in a mode. -/
def rateOf (quantization : Int) (measured : List QuantizationMeasurement) : Option ℚ :=
  measured.foldl (fun rate row =>
    if row.docsPerSec ≤ 0 then rate
    else if row.quantization = quantization then some row.docsPerSec else rate) none

/-- The fastest row that clears the noise floor, with its rate. -/
def fastest (baseline : ℚ) (measured : List QuantizationMeasurement) : Int × ℚ :=
  measured.foldl (fun best row =>
    if row.quantization = Quantization.none.code ∨ row.docsPerSec ≤ 0 then best
    else if quantMinGain ≤ row.docsPerSec / baseline ∧ best.2 < row.docsPerSec then
      (row.quantization, row.docsPerSec)
    else best) (Quantization.none.code, baseline)

/-- `quant_auto_pick` -/
def quantAutoPick (measured : List QuantizationMeasurement) : Int :=
  match rateOf Quantization.none.code measured with
  | none => Quantization.none.code
  | some baseline =>
    let best := fastest baseline measured
    if best.1 = Quantization.none.code then Quantization.none.code
    else match rateOf Quantization.dynamic.code measured with
    | none => best.1
    | some dynamic =>
      if best.1 ≠ Quantization.dynamic.code ∧ best.2 / dynamic < quantDynamicPreference then
        Quantization.dynamic.code
      else best.1

/-- `quant_auto_reason` -/
def quantAutoReason (c : QuantizationChoice) : Bytes :=
  let timed := c.measured.filter (0 < ·.docsPerSec)
  let bestQuantum := (timed.filter (·.quantization ≠ Quantization.none.code)).foldl
    (fun best row => if best < row.docsPerSec then row.docsPerSec else best) 0
  match rateOf Quantization.none.code c.measured,
    timed.find? (·.quantization = c.quantization) with
  | some baseline, some chosen =>
    if c.quantization = Quantization.none.code then
      ascii "kept FP32: best variant reached " ++ showFixed 2 (bestQuantum / baseline) ++
        ascii "x, under the " ++ showFixed 2 quantMinGain ++ ascii "x floor"
    else
      showFixed 2 (chosen.docsPerSec / baseline) ++ ascii "x the fp32 variant (" ++
        showFixed 0 baseline ++ ascii " -> " ++ showFixed 0 chosen.docsPerSec ++ ascii " docs/s)"
  | _, _ => ascii "no fp32 baseline on this machine, kept " ++ quantizationName c.quantization

-- ---------------------------------------------------------------------------
-- The stored decision
-- ---------------------------------------------------------------------------

/-- `quant_auto_identity` -/
def quantAutoIdentity (modelCode : Bytes) : CacheIdentity where
  model := modelCode
  variant := ascii "quantization"
  corpus := []
  objective := -1
  mode := -1

/-- `quant_auto_path` -/
def quantAutoPath (machine : Machine) (dir : Bytes) (id : CacheIdentity) : Bytes :=
  getCachePath machine dir id.model (ascii "quantization") id.variantKey

/-- `quant_auto_json_escape` -/
def quantAutoJsonEscape (s : Bytes) : Bytes :=
  s.flatMap fun c =>
    if c = 34 then [92, 34]
    else if c = 92 then [92, 92]
    else if c = 10 then [92, 110]
    else if c = 13 then [92, 114]
    else if c = 9 then [92, 116]
    else if c < 32 then
      ascii "\\u00" ++ [hexDigit (c.toNat / 16), hexDigit (c.toNat % 16)]
    else [c]

def hexValue (h : UInt8) : Option Nat :=
  if 48 ≤ h ∧ h ≤ 57 then some (h.toNat - 48)
  else if 97 ≤ h ∧ h ≤ 102 then some (h.toNat - 87)
  else if 65 ≤ h ∧ h ≤ 70 then some (h.toNat - 55)
  else none

/-- The control character that four hexadecimal digits stand for. -/
def controlOf (a b c d : UInt8) : Option UInt8 := do
  let code := (((← hexValue a) * 16 + (← hexValue b)) * 16 + (← hexValue c)) * 16 + (← hexValue d)
  if code < 32 then some (UInt8.ofNat code) else none

/-- `quant_auto_json_unescape` -/
def quantAutoJsonUnescape : Bytes → Bytes
  | [] => []
  | [c] => [c]
  | 92 :: n :: rest =>
    if n = 34 then 34 :: quantAutoJsonUnescape rest
    else if n = 92 then 92 :: quantAutoJsonUnescape rest
    else if n = 110 then 10 :: quantAutoJsonUnescape rest
    else if n = 114 then 13 :: quantAutoJsonUnescape rest
    else if n = 116 then 9 :: quantAutoJsonUnescape rest
    else match n, rest with
    | 117, a :: b :: c :: d :: rest =>
      match controlOf a b c d with
      | some control => control :: quantAutoJsonUnescape rest
      | none => 92 :: 117 :: quantAutoJsonUnescape (a :: b :: c :: d :: rest)
    | n, rest => 92 :: n :: quantAutoJsonUnescape rest
  | c :: n :: rest => c :: quantAutoJsonUnescape (n :: rest)

/-- What stands before the first quote that no backslash escapes. -/
def untilQuote : Bytes → Option Bytes
  | [] => none
  | [c] => if c = 34 then some [] else none
  | c :: n :: rest =>
    if c = 92 then (untilQuote rest).map fun raw => c :: n :: raw
    else if c = 34 then some []
    else (untilQuote (n :: rest)).map (c :: ·)

/-- `quant_auto_json_string` -/
def quantAutoJsonString (line key : Bytes) : Option Bytes :=
  (jsonValueSpan line key).bind fun value =>
    match value.dropWhile fun c => c = 32 || c = 9 with
    | 34 :: rest => (untilQuote rest).map quantAutoJsonUnescape
    | _ => none

/-- The fields of a row that were found so far. -/
structure QuantizationRow where
  quantization : Option Int := none
  docsPerSec : Option ℚ := none
  latencyMs : Option ℚ := none
  fileMb : Option ℚ := none

/-- A row counts with all four of its fields. -/
def QuantizationRow.full (row : QuantizationRow) : Option QuantizationMeasurement := do
  return {
    quantization := ← row.quantization
    docsPerSec := ← row.docsPerSec
    latencyMs := ← row.latencyMs
    fileMb := ← row.fileMb }

/-- `"q" + std::to_string(i) + "_" + field` -/
def rowKey (i : Nat) (field : String) : Bytes := ascii "q" ++ showInt i ++ ascii "_" ++ ascii field

def QuantizationRow.read (line : Bytes) (i : Nat) (row : QuantizationRow) : QuantizationRow where
  docsPerSec := (jsonNumber line (rowKey i "docs_per_sec")).or row.docsPerSec
  quantization := ((jsonNumber line (rowKey i "quantization")).map truncated).or row.quantization
  latencyMs := (jsonNumber line (rowKey i "latency_ms")).or row.latencyMs
  fileMb := (jsonNumber line (rowKey i "file_mb")).or row.fileMb

/-- The variables of the loop over the lines. -/
structure QuantizationLoad where
  best : Int := -1
  numMeasured : Int := -1
  reason : Bytes := []
  rows : List QuantizationRow := List.replicate quantMaxVariants {}

def QuantizationLoad.readLine (st : QuantizationLoad) (line : Bytes) : QuantizationLoad :=
  match jsonInt line (ascii "quantization") with
  | some best => { st with best }
  | none => match jsonInt line (ascii "num_measured") with
    | some numMeasured => { st with numMeasured }
    | none => match quantAutoJsonString line (ascii "reason") with
      | some reason => { st with reason }
      | none => { st with rows := st.rows.mapIdx (QuantizationRow.read line) }

/-- The rows before the first one that lacks a field. -/
def completeRows (rows : List QuantizationRow) : List QuantizationMeasurement :=
  ((rows.map QuantizationRow.full).takeWhile Option.isSome).reduceOption

/-- What the lines of an entry come to. -/
def QuantizationLoad.finish (st : QuantizationLoad) : Option QuantizationChoice :=
  let complete := completeRows st.rows
  if st.best < 0 ∨ complete = [] ∨ st.numMeasured ≠ complete.length then none
  else some {
    quantization := st.best
    variantModel := st.best
    fromCache := true
    reason := (cstr st.reason).take 191
    measured := complete }

/-- `quant_auto_load` on what the file holds. -/
def quantAutoLoad (content : Bytes) (id : CacheIdentity) : Option QuantizationChoice :=
  if CacheIdentity.matches content id = true then
    ((linesOf content).foldl QuantizationLoad.readLine {}).finish
  else none

def rowLines (i : Nat) (row : QuantizationMeasurement) (last : Bool) : List Bytes := [
  numberLine (rowKey i "quantization") (showInt row.quantization) false,
  numberLine (rowKey i "docs_per_sec") (showDouble row.docsPerSec) false,
  numberLine (rowKey i "latency_ms") (showDouble row.latencyMs) false,
  numberLine (rowKey i "file_mb") (showDouble row.fileMb) last]

/-- The rows from the `i`-th on. -/
def rowsLines (i : Nat) : List QuantizationMeasurement → List Bytes
  | [] => []
  | row :: rows => rowLines i row rows.isEmpty ++ rowsLines (i + 1) rows

def choiceLines (choice : QuantizationChoice) : List Bytes :=
  numberLine (ascii "quantization") (showInt choice.quantization) false ::
    numberLine (ascii "num_measured") (showInt choice.measured.length) false ::
      stringLine (ascii "reason") (quantAutoJsonEscape choice.reason) ::
        rowsLines 0 (choice.measured.take quantMaxVariants)

/-- The document that `quant_auto_save` writes. -/
def quantAutoDocument (id : CacheIdentity) (choice : QuantizationChoice) : Bytes :=
  entry id (choiceLines choice)

-- ---------------------------------------------------------------------------
-- Measuring and deciding
-- ---------------------------------------------------------------------------

def corpusWords : List Bytes := [
  "the", "quick", "brown", "fox", "jumps", "over", "lazy", "dog",
  "machine", "learning", "algorithms", "process", "data", "efficiently",
  "natural", "language", "processing", "enables", "understanding", "semantic",
  "embeddings", "represent", "meaningful", "vector", "representations",
  "transformer", "models", "utilize", "attention", "mechanisms",
  "deep", "neural", "networks", "learn", "patterns", "from", "training",
  "inference", "latency", "throughput", "benchmark", "performance"].map ascii

def corpusLengths : List Nat := [16, 16, 16, 64, 64, 64, 128, 128]

/-- `quant_auto_corpus` -/
def quantAutoCorpus (numSamples : Nat) : List Bytes :=
  (List.range numSamples).map fun i =>
    (ascii " ").intercalate <|
      (List.range (corpusLengths.getD (i % corpusLengths.length) 0)).map fun j =>
        corpusWords.getD ((i * 7 + j) % corpusWords.length) []

/-- The variants that are compared with the baseline, in the order they are probed. -/
def quantOrder : List Quantization := [.dynamic, .fp16, .static]

/-- A call, and what becomes of the file it writes. -/
structure SelectCall where
  model : Nat
  numThreads : Int
  batchSize : Int
  numDocs : Int
  dryRun : Bool
  saving : Saving

def SelectCall.corpus (call : SelectCall) : List Bytes :=
  let size := if 0 < call.numDocs then call.numDocs else measureDocs
  let size := if size < measureDocs then measureDocs else size
  quantAutoCorpus (if 256 < size then 256 else size).toNat

def SelectCall.batch (call : SelectCall) : Int :=
  if call.batchSize ≤ 0 then defaultBatchSize else call.batchSize

namespace TextHost

variable (host : TextHost)

/-- `quant_auto_collect_variants` -/
def collectVariants (model : Nat) (info : TextModelInfo) : List Nat :=
  let variantOf (q : Quantization) := findTextModelVariant host.registry info.modelName q.code
  let baseline := (variantOf .none).getD model
  baseline :: (quantOrder.filterMap variantOf).filter (· ≠ baseline)

/-- `quant_auto_open` -/
def quantAutoOpen (call : SelectCall) (variant : Nat) : Option TextContext :=
  (host.create {
    model := variant
    numThreads := call.numThreads
    batchSize := call.batch
    offline := true }).toOption

/-- The variants that the probe lets through. -/
def probeVariants (call : SelectCall) (variants : List Nat) : List Nat :=
  (variants.foldl (fun (best, survivors) v =>
    match host.quantAutoOpen call v with
    | none => (best, survivors)
    | some _ =>
      let rate := host.probe v call.numThreads call.batch call.corpus best
      if rate ≤ 0 then (best, survivors)
      else (if best < rate then rate else best, survivors ++ [v])) ((0 : ℚ), [])).2

/-- The row of a variant that could be measured. -/
def measureVariant (call : SelectCall) (v : Nat) : Option QuantizationMeasurement := do
  let info ← host.registry[v]?
  let _ ← host.quantAutoOpen call v
  let (docsPerSec, latencyMs) := host.measure v call.numThreads call.batch call.corpus
  if docsPerSec ≤ 0 then none
  else some {
    quantization := info.quantization.code
    docsPerSec
    latencyMs
    fileMb := host.fileMb v }

/-- The table of the baseline and the survivors. -/
def measuredRows (call : SelectCall) (info : TextModelInfo) : List QuantizationMeasurement :=
  match host.collectVariants call.model info with
  | [] => []
  | baseline :: others =>
    ((baseline :: host.probeVariants call others).filterMap (host.measureVariant call)).take
      quantMaxVariants

/-- The entry a mode stands for, asked for by `model`. -/
def variantFor (model : Nat) (info : TextModelInfo) (quantization : Int) : Option Nat :=
  if quantization = info.quantization.code then some model
  else findTextModelVariant host.registry info.modelName quantization

/-- The mode that a table is decided for. With no baseline the entry that was asked for stands. -/
def winnerOf (info : TextModelInfo) (measured : List QuantizationMeasurement) : Int :=
  if (measured.any fun row => row.quantization = Quantization.none.code && 0 < row.docsPerSec) = true
  then quantAutoPick measured
  else info.quantization.code

/-- The decision that the measurements give. -/
def freshChoice (call : SelectCall) (info : TextModelInfo) : QuantizationChoice :=
  let measured := host.measuredRows call info
  if measured = [] then {
    quantization := info.quantization.code
    variantModel := call.model
    fromCache := false
    reason := ascii "no variant could be measured, kept " ++
      quantizationName info.quantization.code
    measured := [] }
  else
    let winner := winnerOf info measured
    let variant := host.variantFor call.model info winner
    let choice : QuantizationChoice := {
      quantization := if variant.isSome then winner else info.quantization.code
      variantModel := variant.getD call.model
      fromCache := false
      reason := []
      measured }
    { choice with reason := (quantAutoReason choice).take 191 }

/-- The stored decision, where it names an entry of the family. -/
def cachedChoice (files : AutotuneFiles) (model : Nat) (info : TextModelInfo) :
    Option QuantizationChoice := do
  let id := quantAutoIdentity info.modelCode
  let content ← files.read (quantAutoPath host.machine host.autotuneDir id)
  let choice ← quantAutoLoad content id
  let variant ← host.variantFor model info choice.quantization
  return { choice with variantModel := variant }

/-- `lembed_quantization_auto_select` -/
def select (files : AutotuneFiles) (call : SelectCall) :
    Except Status QuantizationChoice × AutotuneFiles :=
  match host.registry[call.model]? with
  | none => (.error .modelNotFound, files)
  | some info =>
    match host.cachedChoice files call.model info with
    | some choice => (.ok choice, files)
    | none =>
      let choice := host.freshChoice call info
      let id := quantAutoIdentity info.modelCode
      let path := quantAutoPath host.machine host.autotuneDir id
      (.ok choice,
        if choice.measured = [] ∨ call.dryRun = true then files
        else files.write path (quantAutoDocument id choice) call.saving)

-- ---------------------------------------------------------------------------
-- Creation with a mode
-- ---------------------------------------------------------------------------

/-- The entries of a family, as the creator counts them. -/
def familyEntries (model : Nat) : Nat :=
  ((List.range host.registry.length).filter fun k => host.sameName k model).length

/-- The entry to load and the mode to report, and the cache after the choice. -/
def resolve (files : AutotuneFiles) (base : TextOptions) (quantization : Int) (saving : Saving) :
    Except Status (Nat × Int) × AutotuneFiles :=
  match host.registry[base.model]? with
  | none => (.ok (base.model, quantization), files)
  | some info =>
    if quantization ≠ Quantization.auto.code then
      if info.quantization.code = quantization then (.ok (base.model, quantization), files)
      else match findTextModelVariant host.registry info.modelName quantization with
      | none => (.error .modelNotFound, files)
      | some variant => (.ok (variant, quantization), files)
    else if host.familyEntries base.model ≤ 1 then (.ok (base.model, quantization), files)
    else
      match host.select files {
        model := base.model
        numThreads := base.numThreads
        batchSize := base.batchSize
        numDocs := 0
        dryRun := false
        saving } with
      | (.error _, files) => (.ok (base.model, quantization), files)
      | (.ok choice, files) =>
        if 0 ≤ choice.variantModel then
          (.ok (choice.variantModel.toNat, choice.quantization), files)
        else (.ok (base.model, quantization), files)

/-- `lembed_text_embedding_create_v2` -/
def createV2 (files : AutotuneFiles) (base : TextOptions) (quantization : Int) (saving : Saving) :
    Except Status TextContext × AutotuneFiles :=
  match host.resolve files base quantization saving with
  | (.error status, files) => (.error status, files)
  | (.ok (model, resolved), files) =>
    match host.create { base with model } with
    | .error status => (.error status, files)
    | .ok ctx =>
      (.ok (if resolved ≠ Quantization.auto.code then { ctx with quantization := resolved } else ctx),
        files)

-- ---------------------------------------------------------------------------
-- Modes and entries stay paired
-- ---------------------------------------------------------------------------

/-- Entry `v` is of the family of `info` and provides the mode. -/
def Provides (info : TextModelInfo) (v : Nat) (quantization : Int) : Prop :=
  ∃ variant, host.registry[v]? = some variant ∧ variant.modelName = info.modelName ∧
    variant.quantization.code = quantization

/-- The choice names the entry that provides its mode. -/
def Paired (info : TextModelInfo) (choice : QuantizationChoice) : Prop :=
  ∃ v : Nat, choice.variantModel = v ∧ host.Provides info v choice.quantization

variable {host}

theorem provides_self (h : host.registry[model]? = some info) :
    host.Provides info model info.quantization.code := ⟨info, h, rfl, rfl⟩

theorem variantFor_provides (hinfo : host.registry[model]? = some info)
    (h : host.variantFor model info quantization = some v) :
    host.Provides info v quantization := by
  unfold variantFor at h
  split at h
  · rename_i hown
    cases h
    exact hown ▸ provides_self hinfo
  · exact findTextModelVariant_some h

theorem freshChoice_paired {call : SelectCall} (hinfo : host.registry[call.model]? = some info) :
    host.Paired info (host.freshChoice call info) := by
  unfold freshChoice
  dsimp only
  split
  · exact ⟨call.model, rfl, provides_self hinfo⟩
  · cases hvariant :
        host.variantFor call.model info (winnerOf info (host.measuredRows call info)) with
    | none => exact ⟨call.model, rfl, provides_self hinfo⟩
    | some v => exact ⟨v, rfl, variantFor_provides hinfo hvariant⟩

theorem cachedChoice_eq (h : host.cachedChoice files model info = some choice) :
    ∃ content stored v,
      files.read (quantAutoPath host.machine host.autotuneDir (quantAutoIdentity info.modelCode)) =
        some content ∧
      quantAutoLoad content (quantAutoIdentity info.modelCode) = some stored ∧
      host.variantFor model info stored.quantization = some v ∧
      choice = { stored with variantModel := v } := by
  simp only [cachedChoice, Option.bind_eq_bind, Option.bind_eq_some_iff] at h
  obtain ⟨content, hread, stored, hload, v, hvariant, hchoice⟩ := h
  exact ⟨content, stored, v, hread, hload, hvariant, (Option.some.inj hchoice).symm⟩

theorem cachedChoice_paired (hinfo : host.registry[model]? = some info)
    (h : host.cachedChoice files model info = some choice) : host.Paired info choice := by
  obtain ⟨-, stored, v, -, -, hvariant, rfl⟩ := cachedChoice_eq h
  exact ⟨v, rfl, variantFor_provides hinfo hvariant⟩

/-- Whatever the cache holds, an answer pairs a mode with the entry that provides it. -/
theorem select_paired {call : SelectCall} (h : (host.select files call).1 = .ok choice) :
    ∃ info, host.registry[call.model]? = some info ∧ host.Paired info choice := by
  unfold select at h
  split at h
  · cases h
  · rename_i info hinfo
    refine ⟨info, hinfo, ?_⟩
    split at h
    · rename_i cached hcached
      cases h
      exact cachedChoice_paired hinfo hcached
    · cases h
      exact freshChoice_paired hinfo

/-- What is resolved is an entry of the family. The mode is the entry's, or the request is left
as it was. -/
theorem resolve_provides (hinfo : host.registry[base.model]? = some info)
    (h : (host.resolve files base quantization saving).1 = .ok (v, resolved)) :
    host.Provides info v resolved ∨ v = base.model ∧ resolved = Quantization.auto.code := by
  unfold resolve at h
  rw [hinfo] at h
  dsimp only at h
  split at h
  · split at h
    · rename_i hown
      cases h
      exact .inl (hown ▸ provides_self hinfo)
    · split at h
      · cases h
      · rename_i variant hvariant
        cases h
        exact .inl (findTextModelVariant_some hvariant)
  · rename_i hauto
    rw [not_not] at hauto
    split at h
    · cases h
      exact .inr ⟨rfl, hauto⟩
    · split at h
      · cases h
        exact .inr ⟨rfl, hauto⟩
      · rename_i choice files' hselect
        obtain ⟨info', hinfo', v', hvariant, hprovides⟩ :=
          select_paired (congrArg Prod.fst hselect)
        obtain rfl := Option.some.inj (hinfo'.symm.trans hinfo)
        split at h
        · cases h
          rw [hvariant, Int.toNat_natCast]
          exact .inl hprovides
        · cases h
          exact .inr ⟨rfl, hauto⟩

theorem createV2_loaded (h : (host.createV2 files base quantization saving).1 = .ok ctx) :
    ∃ info v variant, host.registry[base.model]? = some info ∧
      variant.modelName = info.modelName ∧ host.Loaded { base with model := v } variant ctx := by
  unfold createV2 at h
  split at h
  · cases h
  · rename_i v resolved files' hresolve
    split at h
    · cases h
    · rename_i created hcreate
      obtain ⟨variant, hloaded⟩ := create_ok hcreate
      cases hinfo : host.registry[base.model]? with
      | none =>
        -- Nothing is resolved for an entry that does not exist, and nothing is created.
        unfold resolve at hresolve
        rw [hinfo] at hresolve
        cases hresolve
        have hentry := hloaded.entry
        rw [hinfo] at hentry
        cases hentry
      | some info =>
        have hentry : host.registry[v]? = some variant := hloaded.entry
        rcases resolve_provides hinfo (congrArg Prod.fst hresolve) with hprovides | ⟨rfl, hauto⟩
        · obtain ⟨variant', hvariant', hname, hmode⟩ := hprovides
          obtain rfl := Option.some.inj (hvariant'.symm.trans hentry)
          refine ⟨info, v, variant', rfl, hname, ?_⟩
          split at h
          · cases h
            exact ⟨hloaded.entry, hloaded.weights, hloaded.modelNameStr, hmode.symm⟩
          · cases h
            exact hloaded
        · obtain rfl := Option.some.inj (hinfo.symm.trans hentry)
          rw [if_neg (not_not.mpr hauto)] at h
          cases h
          exact ⟨info, base.model, info, rfl, rfl, hloaded⟩

/-- The mode an answer or a context reports is that of its entry, and the entry is of the
family that was asked for. -/
theorem reports_loaded_weights (host : TextHost) (files : AutotuneFiles) :
    (∀ call choice, (host.select files call).1 = .ok choice →
      ∃ info, host.registry[call.model]? = some info ∧ host.Paired info choice) ∧
    (∀ base quantization saving ctx,
      (host.createV2 files base quantization saving).1 = .ok ctx →
      ∃ info v variant, host.registry[base.model]? = some info ∧
        variant.modelName = info.modelName ∧ host.Loaded { base with model := v } variant ctx) :=
  ⟨fun _ _ h => select_paired h, fun _ _ _ _ h => createV2_loaded h⟩

end TextHost

end LibEmbedding
