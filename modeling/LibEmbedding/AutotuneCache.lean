import LibEmbedding.Foundation.Numerals
import LibEmbedding.TuneCache

/-!
# The autotune cache

`autotune_cache.hpp`: file names made of the machine, the model and the request, documents
of one `"key": value` a line, and the identity that every document opens with.
-/

namespace LibEmbedding

open Foundation

/-- What file names say of the machine and the libraries. `cpu_brand_string` replaces the
slashes of what it reads. -/
structure Machine where
  logicalCores : Int
  physicalCores : Int
  cpuBrand : Bytes
  brandSafe : 47 ∉ cpuBrand
  ortMajor : Int
  ortMinor : Int
  versionMajor : Int
  versionMinor : Int

theorem cpu_brandSafe : 47 ∉ ascii "cpu" := by decide

/-- `sanitize_for_key` -/
def sanitizeForKey (modelName : Bytes) : Bytes :=
  modelName.map fun c => if c = 47 ∨ c = 92 ∨ c = 58 ∨ c = 32 then 95 else c

/-- `get_cache_key` -/
def getCacheKey (machine : Machine) (modelName : Bytes) : Bytes :=
  showInt machine.logicalCores ++ ascii "x" ++ showInt machine.physicalCores ++ ascii "_" ++
    machine.cpuBrand ++ ascii "_" ++ sanitizeForKey modelName ++ ascii "_ort" ++
      showInt machine.ortMajor ++ ascii "." ++ showInt machine.ortMinor ++ ascii "_v" ++
        showInt machine.versionMajor ++ ascii "." ++ showInt machine.versionMinor

/-- `get_cache_path`, below the directory of the cache. -/
def getCachePath (machine : Machine) (dir modelName subdir variant : Bytes) : Bytes :=
  (if subdir = [] then dir else dir ++ ascii "/" ++ subdir) ++ ascii "/" ++
    getCacheKey machine (if variant = [] then modelName else modelName ++ ascii "_" ++ variant) ++
      ascii ".json"

def fnv1aUpdate (h : UInt64) (data : Bytes) : UInt64 :=
  data.foldl (fun h c => (h ^^^ c.toUInt64) * fnvPrime) h

/-- The eight bytes of a length, the lowest first. -/
def lengthBytes (n : Nat) : Bytes := (List.range 8).map fun b => UInt8.ofNat (n / 256 ^ b % 256)

/-- `corpus_fingerprint` -/
def corpusFingerprint (texts : List Bytes) : Bytes :=
  hex16 (texts.foldl (fun h t => fnv1aUpdate (fnv1aUpdate h (lengthBytes t.length)) t) fnvOffset)

/-- `autotune_cache_identity` -/
structure CacheIdentity where
  model : Bytes
  variant : Bytes
  corpus : Bytes
  objective : Int
  mode : Int
  deriving DecidableEq

/-- `cache_variant_key` of an identity. -/
def CacheIdentity.variantKey (id : CacheIdentity) : Bytes :=
  let identity := id.variant ++ ascii "|" ++ id.corpus ++ ascii "|" ++ showInt id.objective ++
    ascii "|" ++ showInt id.mode
  (hex16 (fnv1aUpdate fnvOffset identity)).take 12

-- ---------------------------------------------------------------------------
-- Lines and fields
-- ---------------------------------------------------------------------------

/-- `std::getline` until the end, behind the start of a line. -/
def linesFrom (line : Bytes) : Bytes → List Bytes
  | [] => if line = [] then [] else [line]
  | c :: rest => if c = 10 then line :: linesFrom [] rest else linesFrom (line ++ [c]) rest

def linesOf (content : Bytes) : List Bytes := linesFrom [] content

/-- What follows the first occurrence that `find` finds. -/
def after (pattern : Bytes) : Bytes → Option Bytes
  | [] => if pattern = [] then some [] else none
  | c :: rest =>
    if pattern.isPrefixOf (c :: rest) then some ((c :: rest).drop pattern.length)
    else after pattern rest

/-- A text that needs no escaping and stays on its line. -/
def Plain (s : Bytes) : Prop := 34 ∉ s ∧ 10 ∉ s

instance : Decidable (Plain s) := inferInstanceAs (Decidable (_ ∧ _))

def quoted (s : Bytes) : Bytes := 34 :: s ++ [34]

/-- `json_value_span` -/
def jsonValueSpan (line key : Bytes) : Option Bytes :=
  (after (quoted key) line).bind (after (ascii ":"))

/-- `json_string` -/
def jsonString (line key : Bytes) : Option Bytes :=
  (jsonValueSpan line key).bind fun value => (after [34] value).bind fun value =>
    if 34 ∈ value then some (value.takeWhile (· ≠ 34)) else none

def isTrimmed (c : UInt8) : Bool := c = 32 || c = 34 || c = 44

/-- `trim_json_value` -/
def trimJsonValue (s : Bytes) : Bytes :=
  ((s.dropWhile isTrimmed).reverse.dropWhile isTrimmed).reverse

/-- `json_number` into a double. -/
def jsonNumber (line key : Bytes) : Option ℚ :=
  (jsonValueSpan line key).bind fun value =>
    let value := trimJsonValue value
    if value = [] then none else stod value

/-- The conversion of a double to an `int`. -/
def truncated (d : ℚ) : Int := d.num.tdiv d.den

/-- `json_number` into an `int`. -/
def jsonInt (line key : Bytes) : Option Int :=
  (jsonNumber line key).bind fun d =>
    if d < (intMin : ℚ) ∨ (intMax : ℚ) < d then none else some (truncated d)

/-- `json_string_in_file` and `json_number_in_file` on what the file holds. -/
def jsonStringIn (content key : Bytes) : Option Bytes :=
  (linesOf content).findSome? (jsonString · key)

def jsonNumberIn (content key : Bytes) : Option ℚ :=
  (linesOf content).findSome? (jsonNumber · key)

-- ---------------------------------------------------------------------------
-- Documents
-- ---------------------------------------------------------------------------

/-- A line of a document. -/
def stringLine (key value : Bytes) : Bytes :=
  ascii "  " ++ quoted key ++ ascii ": " ++ quoted value ++ ascii ","

/-- A line whose value is a number. Only the last one has no comma. -/
def numberLine (key value : Bytes) (last : Bool) : Bytes :=
  ascii "  " ++ quoted key ++ ascii ": " ++ value ++ if last then [] else ascii ","

def document (lines : List Bytes) : Bytes := lines.flatMap fun line => line ++ [10]

/-- `write_cache_identity` -/
def CacheIdentity.lines (id : CacheIdentity) : List Bytes := [
  stringLine (ascii "model") id.model,
  stringLine (ascii "variant") id.variant,
  stringLine (ascii "corpus") id.corpus,
  numberLine (ascii "objective") (showInt id.objective) false,
  numberLine (ascii "mode") (showInt id.mode) false]

/-- An entry: a document that opens with its identity. -/
def entry (id : CacheIdentity) (fields : List Bytes) : Bytes :=
  document (ascii "\x7b" :: (id.lines ++ (fields ++ [ascii "\x7d"])))

/-- `cache_identity_matches` on what the file holds. -/
def CacheIdentity.matches (content : Bytes) (want : CacheIdentity) : Bool :=
  match jsonStringIn content (ascii "model"), jsonStringIn content (ascii "variant"),
    jsonStringIn content (ascii "corpus"), jsonNumberIn content (ascii "objective"),
    jsonNumberIn content (ascii "mode") with
  | some model, some variant, some corpus, some objective, some mode =>
    model = want.model && variant = want.variant && corpus = want.corpus &&
      truncated objective = want.objective && truncated mode = want.mode
  | _, _, _, _, _ => false

/-- The files below the directory of the cache, each under its path. -/
abbrev AutotuneFiles := List (Bytes × Bytes)

def AutotuneFiles.read (files : AutotuneFiles) (path : Bytes) : Option Bytes :=
  (files.find? (·.1 = path)).map (·.2)

/-- What becomes of a write: the new document, the old one, or neither. -/
inductive Saving
  | stored
  | kept
  | lost
  deriving DecidableEq

/-- `write_file_atomic` -/
def AutotuneFiles.write (files : AutotuneFiles) (path content : Bytes) :
    Saving → AutotuneFiles
  | .stored => (path, content) :: files.filter (·.1 ≠ path)
  | .kept => files
  | .lost => files.filter (·.1 ≠ path)

end LibEmbedding
