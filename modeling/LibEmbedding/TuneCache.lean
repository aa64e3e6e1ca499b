import LibEmbedding.Cjson

/-!
# The tuning cache

`autotune_cache_impl.hpp`: tuning results in one JSON file, under a hash of the
fingerprint they were measured for. A save appends its entry to the document
and a load takes the first entry of its key, so of several saves under one key
the first is the one that is read back.
-/

namespace LibEmbedding

open Foundation

structure HardwareInfo where
  cpuName : Bytes
  physicalCores : CInt
  logicalCores : CInt
  osName : Bytes
  ramMb : CInt
  features : Bytes
  deriving DecidableEq

structure SoftwareInfo where
  libembedding : Bytes
  llamaCpp : Bytes
  deriving DecidableEq

structure ModelInfo where
  modelId : Bytes
  quantization : Bytes
  dim : CInt
  fileSizeBytes : CInt
  deriving DecidableEq

/-- One measured configuration. A float is the number it stands for: widening it
to a double and narrowing it back changes nothing. -/
structure TuneConfig where
  numSessions : CInt
  numThreads : CInt
  batchSize : CInt
  throughputDocsSec : ℚ
  latencyP50Ms : ℚ
  latencyP95Ms : ℚ
  deriving DecidableEq

def maxConfigs : Nat := 16

structure TuneEntry where
  cacheSchemaVersion : CInt
  hardware : HardwareInfo
  software : SoftwareInfo
  model : ModelInfo
  backend : Bytes
  configs : List TuneConfig
  bestIdx : CInt
  bounded : configs.length ≤ maxConfigs
  deriving DecidableEq

def zeroInt : CInt := clamp 0

/-- `memset(entry, 0, sizeof(*entry))` -/
def TuneEntry.zero : TuneEntry where
  cacheSchemaVersion := zeroInt
  hardware := ⟨[], zeroInt, zeroInt, [], zeroInt, []⟩
  software := ⟨[], []⟩
  model := ⟨[], [], zeroInt, zeroInt⟩
  backend := []
  configs := []
  bestIdx := zeroInt
  bounded := Nat.zero_le _

def tuneCacheSchemaVersion : CInt := clamp 2

-- ---------------------------------------------------------------------------
-- The key
-- ---------------------------------------------------------------------------

def fnvOffset : UInt64 := 1469598103934665603
def fnvPrime : UInt64 := 1099511628211

def fnv1a (bytes : Bytes) : UInt64 :=
  bytes.foldl (fun hash c => (hash ^^^ c.toUInt64) * fnvPrime) fnvOffset

/-- One `%x` digit. -/
def hexDigit (n : Nat) : UInt8 := if n < 10 then 48 + UInt8.ofNat n else 87 + UInt8.ofNat n

/-- `%016llx` -/
def hex16 (hash : UInt64) : Bytes :=
  (List.range 16).reverse.map fun i => hexDigit (hash.toNat / 16 ^ i % 16)

def appendField (fp : Bytes) (value : Option Bytes) (separator : UInt8) : Bytes :=
  fp ++ value.getD (ascii "unknown") ++ [separator]

/-- The string the key hashes: each field ends with a bar, the last with NUL. -/
def fingerprint (hw : Option HardwareInfo) (sw : Option SoftwareInfo) (model : Option ModelInfo)
    (backend : Option Bytes) : Bytes :=
  let bar : UInt8 := 124
  let fp := appendField [] (hw.map (·.cpuName)) bar
  let fp := appendField fp (hw.map (·.osName)) bar
  let fp := appendField fp (sw.map (·.libembedding)) bar
  let fp := appendField fp (sw.map (·.llamaCpp)) bar
  let fp := appendField fp (model.map (·.modelId)) bar
  appendField fp backend 0

def tuneCacheKey (hw : Option HardwareInfo) (sw : Option SoftwareInfo) (model : Option ModelInfo)
    (backend : Option Bytes) : Bytes :=
  hex16 (fnv1a (fingerprint hw sw model backend))

def TuneEntry.key (entry : TuneEntry) : Bytes :=
  tuneCacheKey (some entry.hardware) (some entry.software) (some entry.model) (some entry.backend)

-- ---------------------------------------------------------------------------
-- Entries
-- ---------------------------------------------------------------------------

def addConfig (entry : TuneEntry) (config : TuneConfig) : TuneEntry :=
  if h : maxConfigs ≤ entry.configs.length then entry
  else
    { entry with configs := entry.configs ++ [config]
                 bounded := by simp; omega }

def setBest (entry : TuneEntry) (idx : CInt) : TuneEntry :=
  if idx.val < 0 ∨ (entry.configs.length : Int) ≤ idx.val then entry
  else { entry with bestIdx := idx }

def configItem (c : TuneConfig) : Json :=
  .object [
    (ascii "sessions", .number c.numSessions.val),
    (ascii "threads", .number c.numThreads.val),
    (ascii "batch_size", .number c.batchSize.val),
    (ascii "throughput", .number c.throughputDocsSec),
    (ascii "latency_p50", .number c.latencyP50Ms),
    (ascii "latency_p95", .number c.latencyP95Ms)]

def entryItem (entry : TuneEntry) : Json :=
  .object [
    (ascii "schema_version", .number tuneCacheSchemaVersion.val),
    (ascii "model", .string entry.model.modelId),
    (ascii "backend", .string entry.backend),
    (ascii "dim", .number entry.model.dim.val),
    (ascii "best_idx", .number entry.bestIdx.val),
    (ascii "configs", .array (entry.configs.map configItem)),
    (ascii "cpu", .string entry.hardware.cpuName),
    (ascii "os", .string entry.hardware.osName),
    (ascii "libembedding", .string entry.software.libembedding),
    (ascii "llama_cpp", .string entry.software.llamaCpp),
    (ascii "quantization", .string entry.model.quantization)]

def intField (c : Option Json) (name : String) : CInt :=
  ((Json.getObjectItem c (ascii name)).map Json.valueint).getD zeroInt

def floatField (c : Option Json) (name : String) : ℚ :=
  ((Json.getObjectItem c (ascii name)).map Json.valuedouble).getD 0

def readConfig (c : Option Json) : TuneConfig where
  numSessions := intField c "sessions"
  numThreads := intField c "threads"
  batchSize := intField c "batch_size"
  throughputDocsSec := floatField c "throughput"
  latencyP50Ms := floatField c "latency_p50"
  latencyP95Ms := floatField c "latency_p95"

def readEntry (item : Json) : TuneEntry :=
  let entry := { TuneEntry.zero with
    cacheSchemaVersion := ((Json.getObjectItem (some item) (ascii "schema_version")).map
      Json.valueint).getD tuneCacheSchemaVersion
    bestIdx := intField (some item) "best_idx" }
  match Json.getObjectItem (some item) (ascii "configs") with
  | none => entry
  | some configs =>
    (List.range (min (Json.getArraySize (some configs)) 16)).foldl
      (fun entry i => addConfig entry (readConfig (Json.getArrayItem (some configs) i))) entry

-- ---------------------------------------------------------------------------
-- The file
-- ---------------------------------------------------------------------------

namespace TuneCache

variable {Text : Type}

/-- The document of the cache file, `none` being a missing file. -/
def loadCache (codec : Cjson Text) (file : Option Text) : Json :=
  match file with
  | none => .object []
  | some content =>
    if codec.empty content then .object [] else (codec.parse content).getD (.object [])

def load (codec : Cjson Text) (hw : HardwareInfo) (sw : SoftwareInfo) (model : ModelInfo)
    (backend : Bytes) (file : Option Text) : Status × Option TuneEntry :=
  let key := tuneCacheKey (some hw) (some sw) (some model) (some backend)
  match Json.getObjectItem (some (loadCache codec file)) key with
  | none => (.cacheMiss, none)
  | some item => (.ok, some (readEntry item))

/-- `opens` says whether the file could be opened for writing. -/
def writeFile (opens : Bool) (content : Text) (file : Option Text) : Bool × Option Text :=
  if opens then (true, some content) else (false, file)

def save (codec : Cjson Text) (opens : Bool) (entry : TuneEntry) (file : Option Text) :
    Status × Option Text :=
  let root := Json.addItemToObject entry.key (entryItem entry) (loadCache codec file)
  let (ok, file) := writeFile opens (codec.print root) file
  (if ok then .ok else .io, file)

def clear : Status × Option Text := (.ok, none)

end TuneCache

end LibEmbedding
