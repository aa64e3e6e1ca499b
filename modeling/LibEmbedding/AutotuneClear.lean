import LibEmbedding.TextTuning

/-!
# Clearing the autotune cache

`clear_autotune_cache`: the root and its sub-directories are swept, and a file goes where its
path has the model's name between underscores or its `model` field is the model.
-/

namespace LibEmbedding

open Foundation

-- ---------------------------------------------------------------------------
-- The sweep
-- ---------------------------------------------------------------------------

/-- What stands behind a directory in a path below it. -/
def below (dir path : Bytes) : Option Bytes :=
  if (dir ++ ascii "/").isPrefixOf path = true then some (path.drop (dir.length + 1)) else none

/-- A file of the directory itself. -/
def inDir (dir path : Bytes) : Bool := (below dir path).any fun name => 47 ∉ name

/-- The directories that a listing of `dir` shows. One without files is no matter. -/
def subdirsOf (dir : Bytes) (files : AutotuneFiles) : List Bytes :=
  files.filterMap fun file => (below dir file.1).bind fun rest =>
    if 47 ∈ rest then some (dir ++ ascii "/" ++ rest.takeWhile (· ≠ 47)) else none

def endsWith (path suffix : Bytes) : Bool :=
  suffix.length < path.length && suffix.isSuffixOf path

/-- The tests that a file has to pass to be removed. -/
def sweeps (modelName : Bytes) (file : Bytes × Bytes) : Bool :=
  let legacyToken := ascii "_" ++ sanitizeForKey modelName ++ ascii "_"
  (endsWith file.1 (ascii ".json") || endsWith file.1 (ascii ".json.tmp")) &&
    ((after legacyToken file.1).isSome ||
      jsonStringIn file.2 (ascii "model") = some modelName)

/-- `clear_autotune_cache_in_dir` -/
def clearInDir (modelName : Bytes) (files : AutotuneFiles) (dir : Bytes) : AutotuneFiles :=
  files.filter fun file => !(inDir dir file.1 && sweeps modelName file)

/-- `clear_autotune_cache`. With no model everything below the directory goes. -/
def clearAutotuneCache (cacheDir : Bytes) (files : AutotuneFiles) (modelName : Option Bytes)
    (subdir : Bytes) : AutotuneFiles :=
  let dir := if subdir = [] then cacheDir else cacheDir ++ ascii "/" ++ subdir
  match modelName with
  | none => files.filter fun file => (below dir file.1).isNone
  | some modelName =>
    if subdir ≠ [] then clearInDir modelName files dir
    else (dir :: subdirsOf dir files).foldl (clearInDir modelName) files

-- ---------------------------------------------------------------------------
-- What the writers write
-- ---------------------------------------------------------------------------

/-- Who tunes, each with a directory of its own. -/
inductive Tuner where
  | text
  | reranker
  | quantization
  deriving DecidableEq

def Tuner.subdir : Tuner → Bytes
  | .text => []
  | .reranker => ascii "reranker"
  | .quantization => ascii "quantization"

/-- A document that one of the writers left, on some machine, with the fields it has behind the
identity. -/
structure CacheRecord where
  machine : Machine
  tuner : Tuner
  id : CacheIdentity
  fields : List Bytes

namespace CacheRecord

def path (cacheDir : Bytes) (r : CacheRecord) : Bytes :=
  getCachePath r.machine cacheDir r.id.model r.tuner.subdir r.id.variantKey

def file (cacheDir : Bytes) (r : CacheRecord) : Bytes × Bytes :=
  (r.path cacheDir, entry r.id r.fields)

/-- Clearing a model takes the records of the model, and no others. -/
def ClearedExactly (cacheDir modelName : Bytes) (records : List CacheRecord) : Prop :=
  ∀ r ∈ records,
    r.file cacheDir ∈ clearAutotuneCache cacheDir (records.map (file cacheDir)) (some modelName) [] ↔
      r.id.model ≠ modelName

/-- Nothing of the model's name is in another model's path, and no other model's field reads as
the model's. -/
def ToldApart (cacheDir modelName : Bytes) (records : List CacheRecord) : Prop :=
  ∀ r ∈ records, r.id.model ≠ modelName →
    ¬(ascii "_" ++ sanitizeForKey modelName ++ ascii "_") <:+: r.path cacheDir ∧
      jsonStringIn (entry r.id r.fields) (ascii "model") ≠ some modelName

-- ---------------------------------------------------------------------------
-- Finding
-- ---------------------------------------------------------------------------

end CacheRecord

theorem after_isSome_iff (pattern s : Bytes) : (after pattern s).isSome = true ↔ pattern <:+: s := by
  induction s with
  | nil =>
    rw [after, List.infix_nil]
    split
    · rename_i hnil
      exact iff_of_true rfl hnil
    · rename_i hnil
      exact iff_of_false Bool.false_ne_true hnil
  | cons c s ih =>
    rw [after, List.infix_cons_iff, ← ih]
    split
    · rename_i hpre
      exact iff_of_true rfl (.inl (List.isPrefixOf_iff_prefix.mp hpre))
    · rename_i hpre
      rw [or_iff_right fun h => hpre (List.isPrefixOf_iff_prefix.mpr h)]

/-- A file stays exactly when no directory of the sweep takes it. -/
theorem mem_foldl_clearInDir (dirs : List Bytes) (modelName : Bytes) (files : AutotuneFiles)
    (f : Bytes × Bytes) :
    f ∈ dirs.foldl (clearInDir modelName) files ↔
      f ∈ files ∧ ∀ dir ∈ dirs, ¬(inDir dir f.1 = true ∧ sweeps modelName f = true) := by
  induction dirs generalizing files with
  | nil => simp
  | cons dir dirs ih =>
    rw [List.foldl_cons, ih, clearInDir, List.mem_filter, List.forall_mem_cons, and_assoc,
      Bool.not_eq_true', Bool.and_eq_false_iff]
    refine and_congr_right fun _ => and_congr_left fun _ => ?_
    rw [not_and_or, Bool.not_eq_true, Bool.not_eq_true]

-- ---------------------------------------------------------------------------
-- Paths of records
-- ---------------------------------------------------------------------------

theorem showInt_noSlash (n : Int) : 47 ∉ showInt n := by
  intro h
  have hnumeral := numeral_showInt n 47 h
  revert hnumeral
  decide

theorem sanitizeForKey_noSlash (s : Bytes) : 47 ∉ sanitizeForKey s := by
  intro h
  obtain ⟨c, -, hc⟩ := List.mem_map.mp h
  split at hc
  · cases hc
  · rename_i hother
    exact hother (.inl hc)

theorem sanitizeForKey_append (s t : Bytes) :
    sanitizeForKey (s ++ t) = sanitizeForKey s ++ sanitizeForKey t := List.map_append

theorem getCacheKey_noSlash (machine : Machine) (modelName : Bytes) :
    47 ∉ getCacheKey machine modelName := by
  simp [getCacheKey, showInt_noSlash, machine.brandSafe, sanitizeForKey_noSlash, ascii]

theorem variantKey_ne_nil (id : CacheIdentity) : id.variantKey ≠ [] := by
  intro h
  have hlength := congrArg List.length h
  rw [CacheIdentity.variantKey, List.length_take, hex16, List.length_map, List.length_reverse,
    List.length_range] at hlength
  cases hlength

/-- The model's name stands between underscores in the path of its own records. -/
theorem token_infix (machine : Machine) (cacheDir modelName subdir : Bytes) {variant : Bytes}
    (hvariant : variant ≠ []) :
    ascii "_" ++ sanitizeForKey modelName ++ ascii "_" <:+:
      getCachePath machine cacheDir modelName subdir variant := by
  have hunderscore : sanitizeForKey (ascii "_") = ascii "_" := by decide
  rw [getCachePath, if_neg hvariant, getCacheKey, sanitizeForKey_append, sanitizeForKey_append,
    hunderscore]
  refine ⟨(if subdir = [] then cacheDir else cacheDir ++ ascii "/" ++ subdir) ++ ascii "/" ++
    (showInt machine.logicalCores ++ ascii "x" ++ showInt machine.physicalCores ++ ascii "_" ++
      machine.cpuBrand), sanitizeForKey variant ++ ascii "_ort" ++ showInt machine.ortMajor ++
        ascii "." ++ showInt machine.ortMinor ++ ascii "_v" ++ showInt machine.versionMajor ++
          ascii "." ++ showInt machine.versionMinor ++ ascii ".json", ?_⟩
  simp only [List.append_assoc]

theorem below_append (dir name : Bytes) : below dir (dir ++ ascii "/" ++ name) = some name := by
  rw [below, if_pos (List.isPrefixOf_iff_prefix.mpr (List.prefix_append _ _))]
  have hlength : dir.length + 1 = (dir ++ ascii "/").length := by
    rw [List.length_append]
    rfl
  rw [hlength, List.drop_left]

theorem inDir_append (dir : Bytes) (hname : 47 ∉ name) :
    inDir dir (dir ++ ascii "/" ++ name) = true := by
  rw [inDir, below_append]
  exact decide_eq_true hname

theorem endsWith_json (h : path ≠ []) : endsWith (path ++ ascii ".json") (ascii ".json") = true := by
  rw [endsWith, Bool.and_eq_true, decide_eq_true_eq, List.length_append]
  exact ⟨Nat.lt_add_of_pos_left (List.length_pos_of_ne_nil h),
    List.isSuffixOf_iff_suffix.mpr (List.suffix_append _ _)⟩

namespace CacheRecord

variable (cacheDir : Bytes) (r : CacheRecord)

/-- The name of a record's file. -/
def fileName : Bytes :=
  getCacheKey r.machine (r.id.model ++ ascii "_" ++ r.id.variantKey) ++ ascii ".json"

theorem fileName_noSlash : 47 ∉ r.fileName := by
  rw [fileName, List.mem_append, not_or]
  exact ⟨getCacheKey_noSlash _ _, by decide⟩

theorem path_eq : r.path cacheDir =
    (if r.tuner.subdir = [] then cacheDir else cacheDir ++ ascii "/" ++ r.tuner.subdir) ++
      ascii "/" ++ r.fileName := by
  rw [path, getCachePath, if_neg (variantKey_ne_nil r.id), fileName]
  simp only [List.append_assoc]

theorem isCacheFile : endsWith (r.path cacheDir) (ascii ".json") = true := by
  have hne (front : Bytes) : front ++ ascii "/" ++
      getCacheKey r.machine (r.id.model ++ ascii "_" ++ r.id.variantKey) ≠ [] := by
    simp [ascii]
  rw [path_eq, fileName, ← List.append_assoc]
  exact endsWith_json (hne _)

/-- A sweep of the cache reaches every record. -/
theorem reached {records : List CacheRecord} (hr : r ∈ records) :
    ∃ dir ∈ cacheDir :: subdirsOf cacheDir (records.map (file cacheDir)),
      inDir dir (r.path cacheDir) = true := by
  by_cases hroot : r.tuner.subdir = []
  · refine ⟨cacheDir, List.mem_cons_self, ?_⟩
    rw [path_eq, if_pos hroot]
    exact inDir_append cacheDir r.fileName_noSlash
  · refine ⟨cacheDir ++ ascii "/" ++ r.tuner.subdir, List.mem_cons_of_mem _ ?_, ?_⟩
    · refine List.mem_filterMap.mpr ⟨r.file cacheDir, List.mem_map_of_mem hr, ?_⟩
      have hbelow : below cacheDir (r.file cacheDir).1 =
          some (r.tuner.subdir ++ (ascii "/" ++ r.fileName)) := by
        have hpath : (r.file cacheDir).1 =
            cacheDir ++ ascii "/" ++ (r.tuner.subdir ++ (ascii "/" ++ r.fileName)) := by
          rw [file, path_eq, if_neg hroot]
          simp only [List.append_assoc]
        rw [hpath, below_append]
      have hfirst : (r.tuner.subdir ++ (ascii "/" ++ r.fileName)).takeWhile (· ≠ 47) =
          r.tuner.subdir := by
        cases r.tuner <;> rfl
      rw [hbelow, Option.bind_some, if_pos (by simp [ascii]), hfirst]
    · rw [path_eq, if_neg hroot]
      exact inDir_append _ r.fileName_noSlash

/-- A record survives exactly when the tests do not take it. -/
theorem survives_iff {records : List CacheRecord} (modelName : Bytes) (hr : r ∈ records) :
    r.file cacheDir ∈
        clearAutotuneCache cacheDir (records.map (file cacheDir)) (some modelName) [] ↔
      sweeps modelName (r.file cacheDir) = false := by
  obtain ⟨dir, hdir, hin⟩ := reached cacheDir r hr
  rw [clearAutotuneCache, if_pos rfl, if_neg (not_not.mpr rfl), mem_foldl_clearInDir,
    and_iff_right (List.mem_map_of_mem hr), ← Bool.not_eq_true]
  constructor
  · intro hkept hsweeps
    exact hkept dir hdir ⟨hin, hsweeps⟩
  · intro hother dir' _ htaken
    exact hother htaken.2

theorem sweeps_iff (modelName : Bytes) :
    sweeps modelName (r.file cacheDir) = true ↔
      ascii "_" ++ sanitizeForKey modelName ++ ascii "_" <:+: r.path cacheDir ∨
        jsonStringIn (entry r.id r.fields) (ascii "model") = some modelName := by
  have hname : endsWith (r.file cacheDir).1 (ascii ".json") = true := r.isCacheFile cacheDir
  rw [sweeps, hname, Bool.true_or, Bool.true_and, Bool.or_eq_true, after_isSome_iff,
    decide_eq_true_eq]
  rfl

/-- Clearing a model is exact where no other model's records are taken for its own. -/
theorem clearedExactly_iff (cacheDir modelName : Bytes) (records : List CacheRecord) :
    ClearedExactly cacheDir modelName records ↔ ToldApart cacheDir modelName records := by
  refine forall₂_congr fun r hr => ?_
  rw [survives_iff cacheDir r modelName hr, ← Bool.not_eq_true, sweeps_iff, not_or]
  constructor
  · exact fun h hother => h.mpr hother
  · intro h
    refine ⟨fun hkept hown => hkept.1 ?_, h⟩
    rw [← hown]
    exact token_infix r.machine cacheDir r.id.model r.tuner.subdir (variantKey_ne_nil r.id)

/-- A legible record's field reads as its model, so its path alone can give it away. -/
theorem toldApart_iff_of_legible {records : List CacheRecord}
    (hlegible : ∀ r ∈ records, r.id.Legible ∧ ∀ line ∈ r.fields, 10 ∉ line) (modelName : Bytes) :
    ToldApart cacheDir modelName records ↔ ∀ r ∈ records, r.id.model ≠ modelName →
      ¬(ascii "_" ++ sanitizeForKey modelName ++ ascii "_") <:+: r.path cacheDir := by
  refine forall₂_congr fun r hr => imp_congr_right fun hother => ?_
  rw [entry_model (hlegible r hr).1 (hlegible r hr).2]
  exact and_iff_left fun heq => hother (Option.some.inj heq)

/-- A result tuned for a model with a longer name. -/
def largeRecord : CacheRecord where
  machine := {
    logicalCores := 8, physicalCores := 4, cpuBrand := ascii "cpu", brandSafe := cpu_brandSafe
    ortMajor := 1, ortMinor := 20, versionMajor := 1, versionMinor := 11 }
  tuner := .text
  id := textCacheIdentity (ascii "org/model_large") (ascii "custom")
    (corpusFingerprint [ascii "text"]) .quick
  fields := TuningResult.lines {
    workers := 1, threads := 1, batchSize := 32, throughputDocsSec := 100, latencyMs := 10
    memoryMb := 100 }

/-- Clearing `org/model` deletes what is recorded for `org/model_large`. -/
theorem large_not_clearedExactly :
    ¬ClearedExactly (ascii "autotune") (ascii "org/model") [largeRecord] := by
  intro h
  have hkept := (h largeRecord List.mem_cons_self).mpr (by decide)
  revert hkept
  decide +kernel

end CacheRecord

end LibEmbedding
