import LibEmbedding.TuneCache

/-!
# Histories of the tuning cache

The document after a history is the list of the entries saved since the last
clear, oldest first. A load returns the first of its key, so last-write-wins
holds exactly where the first and the last entry of the key store the same.
-/

namespace LibEmbedding

open Foundation

-- ---------------------------------------------------------------------------
-- Reading back one entry
-- ---------------------------------------------------------------------------

/-- The fields a save stores for the next load. -/
structure Stored where
  configs : List TuneConfig
  bestIdx : CInt
  deriving DecidableEq

def TuneEntry.stored (entry : TuneEntry) : Stored := ⟨entry.configs, entry.bestIdx⟩

theorem readConfig_configItem (c : TuneConfig) : readConfig (some (configItem c)) = c := by
  have hi : ∀ name x, Json.getObjectItem (some (configItem c)) (ascii name) = some (.number x.val) →
      intField (some (configItem c)) name = x := by
    intro name x h
    simp [intField, h]
  have hf : ∀ name d, Json.getObjectItem (some (configItem c)) (ascii name) = some (.number d) →
      floatField (some (configItem c)) name = d := by
    intro name d h
    simp [floatField, h]
  cases c
  simp only [readConfig, TuneConfig.mk.injEq]
  exact ⟨hi _ _ rfl, hi _ _ rfl, hi _ _ rfl, hf _ _ rfl, hf _ _ rfl, hf _ _ rfl⟩

/-- Below the capacity each `addConfig` appends. -/
theorem foldl_addConfig (entry : TuneEntry) (cs : List TuneConfig)
    (h : (entry.configs ++ cs).length ≤ maxConfigs) :
    cs.foldl addConfig entry = { entry with configs := entry.configs ++ cs, bounded := h } := by
  induction cs generalizing entry with
  | nil => simp
  | cons c cs ih =>
    have hlen : ¬maxConfigs ≤ entry.configs.length := by
      simp only [List.length_append, List.length_cons] at h
      omega
    have hadd : addConfig entry c = { entry with
        configs := entry.configs ++ [c]
        bounded := by simp; omega } := dif_neg hlen
    rw [List.foldl_cons, hadd, ih _ (by simpa using h)]
    simp

theorem map_readConfig (cs : List TuneConfig) :
    (List.range cs.length).map (fun i =>
      readConfig (Json.getArrayItem (some (.array (cs.map configItem))) i)) = cs := by
  apply List.ext_getElem (by simp)
  intro i hi hi'
  rw [List.getElem_map, List.getElem_range]
  have hitem : Json.getArrayItem (some (.array (cs.map configItem))) i =
      some (configItem cs[i]) := by
    simp [Json.getArrayItem, Json.children, hi']
  rw [hitem, readConfig_configItem]

/-- Loading a saved entry gives back what it stores; the rest is zero. -/
theorem readEntry_entryItem (entry : TuneEntry) :
    readEntry (entryItem entry) =
      { TuneEntry.zero with cacheSchemaVersion := tuneCacheSchemaVersion
                            configs := entry.configs
                            bestIdx := entry.bestIdx
                            bounded := entry.bounded } := by
  have hversion : Json.getObjectItem (some (entryItem entry)) (ascii "schema_version") =
      some (.number tuneCacheSchemaVersion.val) := rfl
  have hbest : Json.getObjectItem (some (entryItem entry)) (ascii "best_idx") =
      some (.number entry.bestIdx.val) := rfl
  have hconfigs : Json.getObjectItem (some (entryItem entry)) (ascii "configs") =
      some (.array (entry.configs.map configItem)) := rfl
  have hsize : min (Json.getArraySize (some (.array (entry.configs.map configItem)))) 16 =
      entry.configs.length := by
    simp only [Json.getArraySize, Option.elim_some, Json.children, List.length_map]
    exact Nat.min_eq_left entry.bounded
  simp only [readEntry, hversion, hconfigs, intField, hbest, Option.map_some, Option.getD_some,
    Json.valueint_number, hsize]
  rw [← List.foldl_map, map_readConfig,
    foldl_addConfig _ _ (by simpa [TuneEntry.zero] using entry.bounded)]
  simp [TuneEntry.zero]

-- ---------------------------------------------------------------------------
-- Keys
-- ---------------------------------------------------------------------------

theorem toLower_hexDigit : ∀ n < 16, toLower (hexDigit n) = hexDigit n := by decide

/-- Keys are lower case, so names match regardless of case only if they are equal. -/
theorem toLower_key (hash : UInt64) : (hex16 hash).map toLower = hex16 hash := by
  rw [hex16, List.map_map]
  apply List.map_congr_left
  intro i _
  exact toLower_hexDigit _ (Nat.mod_lt _ (by decide))

theorem TuneEntry.map_toLower_key (entry : TuneEntry) : entry.key.map toLower = entry.key :=
  toLower_key _

-- ---------------------------------------------------------------------------
-- Histories
-- ---------------------------------------------------------------------------

namespace TuneCache

variable {Text : Type} (codec : Cjson Text)

/-- A fingerprint a load is called with. -/
structure Fingerprint where
  hw : HardwareInfo
  sw : SoftwareInfo
  model : ModelInfo
  backend : Bytes

def Fingerprint.key (fp : Fingerprint) : Bytes :=
  tuneCacheKey (some fp.hw) (some fp.sw) (some fp.model) (some fp.backend)

inductive Op where
  | save (entry : TuneEntry) (opens : Bool)
  | load (fp : Fingerprint)
  | clear

def Fingerprint.load (fp : Fingerprint) (file : Option Text) : Status × Option TuneEntry :=
  TuneCache.load codec fp.hw fp.sw fp.model fp.backend file

/-- The file one call leaves. -/
def step (file : Option Text) : Op → Option Text
  | .save entry opens => (save codec opens entry file).2
  | .load _ => file
  | .clear => clear.2

def run (ops : List Op) : Option Text := ops.foldl (step codec) none

/-- The entries saved since the last clear, oldest first. -/
def saved (ops : List Op) : List TuneEntry :=
  ops.foldl (fun entries op =>
    match op with
    | .save entry opens => if opens then entries ++ [entry] else entries
    | .load _ => entries
    | .clear => []) []

def firstSaved (ops : List Op) (key : Bytes) : Option TuneEntry :=
  (saved ops).find? (·.key = key)

def lastSaved (ops : List Op) (key : Bytes) : Option TuneEntry :=
  (saved ops).reverse.find? (·.key = key)

/-- A load after the history returns what the last save of its key stored, and
reports a miss where there is none. -/
def LastWriteWins (ops : List Op) (fp : Fingerprint) : Prop :=
  match lastSaved ops fp.key with
  | some entry => ∃ loaded, fp.load codec (run codec ops) = (.ok, some loaded) ∧
      loaded.stored = entry.stored
  | none => (fp.load codec (run codec ops)).1 = .cacheMiss

def document (entries : List TuneEntry) : Json :=
  .object (entries.map fun entry => (entry.key, entryItem entry))

theorem loadCache_print (tree : Json) : loadCache codec (some (codec.print tree)) = tree := by
  simp [loadCache, codec.print_nonempty, codec.parse_print]

/-- The document after a history holds the saved entries in order. -/
theorem loadCache_run (ops : List Op) :
    loadCache codec (run codec ops) = document (saved ops) := by
  induction ops using List.reverseRecOn with
  | nil => rfl
  | append_singleton ops op ih =>
    simp only [run, saved, List.foldl_append, List.foldl_cons, List.foldl_nil] at ih ⊢
    cases op with
    | save entry opens =>
      cases opens with
      | true =>
        simp [step, save, writeFile, loadCache_print, ih, document, Json.addItemToObject]
      | false => simpa [step, save, writeFile] using ih
    | load fp => exact ih
    | clear => rfl

theorem getObjectItem_document (entries : List TuneEntry) (fp : Fingerprint) :
    Json.getObjectItem (some (document entries)) fp.key =
      (entries.find? (·.key = fp.key)).map entryItem := by
  have hkey : fp.key.map toLower = fp.key := toLower_key _
  rw [document, Json.getObjectItem_object, List.find?_map, Option.map_map, hkey]
  simp only [Function.comp_def, TuneEntry.map_toLower_key]

/-- A load returns what the first save of its key stored. -/
theorem load_run (ops : List Op) (fp : Fingerprint) :
    fp.load codec (run codec ops) =
      match firstSaved ops fp.key with
      | some entry => (.ok, some (readEntry (entryItem entry)))
      | none => (.cacheMiss, none) := by
  have hitem := getObjectItem_document (saved ops) fp
  rw [← loadCache_run codec ops] at hitem
  simp only [Fingerprint.load, load]
  rw [show tuneCacheKey (some fp.hw) (some fp.sw) (some fp.model) (some fp.backend) =
      fp.key from rfl,
    hitem, firstSaved]
  cases (saved ops).find? (·.key = fp.key) <;> rfl

theorem firstSaved_isSome (ops : List Op) (key : Bytes) :
    (firstSaved ops key).isSome = (lastSaved ops key).isSome := by
  rw [Bool.eq_iff_iff, firstSaved, lastSaved, List.find?_isSome, List.find?_isSome]
  simp

/-- Last-write-wins holds of a load exactly where the first and the last save of
its key since the last clear store the same. -/
theorem lastWriteWins_iff (ops : List Op) (fp : Fingerprint) :
    LastWriteWins codec ops fp ↔
      (firstSaved ops fp.key).map TuneEntry.stored =
        (lastSaved ops fp.key).map TuneEntry.stored := by
  have hsome := firstSaved_isSome ops fp.key
  rw [LastWriteWins, load_run codec ops fp]
  cases hlast : lastSaved ops fp.key with
  | none =>
    have hfirst : firstSaved ops fp.key = none := by simpa [hlast] using hsome
    simp [hfirst]
  | some entry =>
    obtain ⟨first, hfirst⟩ : ∃ first, firstSaved ops fp.key = some first :=
      Option.isSome_iff_exists.mp (by simp [hsome, hlast])
    have hread : (readEntry (entryItem first)).stored = first.stored := by
      rw [readEntry_entryItem]
      rfl
    simp [hfirst, hread]

/-- Saving again under a key does not replace what the first save stored. -/
theorem not_lastWriteWins_of_resave {old new : TuneEntry} {fp : Fingerprint}
    (hold : old.key = fp.key) (hnew : new.key = fp.key) (hne : old.stored ≠ new.stored) :
    ¬LastWriteWins codec [.save old true, .save new true] fp := by
  have hfirst : firstSaved [.save old true, .save new true] fp.key = some old := by
    simp [firstSaved, saved, hold]
  have hlast : lastSaved [.save old true, .save new true] fp.key = some new := by
    simp [lastSaved, saved, hnew]
  intro h
  rw [LastWriteWins, hlast, load_run, hfirst] at h
  obtain ⟨loaded, hload, hstored⟩ := h
  cases hload
  rw [readEntry_entryItem] at hstored
  exact hne hstored

/-- A result measured on one machine, whose best configuration is `best`. -/
def sampleEntry (best : CInt) : TuneEntry where
  cacheSchemaVersion := tuneCacheSchemaVersion
  hardware := ⟨ascii "cpu", clamp 4, clamp 8, ascii "linux", clamp 16000, []⟩
  software := ⟨ascii "1.11.0", ascii "b5434"⟩
  model := ⟨ascii "bge-small", ascii "fp32", clamp 384, clamp 1000⟩
  backend := ascii "onnx"
  configs := [⟨clamp 1, clamp 4, clamp 8, 10, 1, 2⟩, ⟨clamp 2, clamp 2, clamp 8, 20, 1, 2⟩]
  bestIdx := best
  bounded := by decide

def sampleFingerprint : Fingerprint :=
  ⟨(sampleEntry (clamp 0)).hardware, (sampleEntry (clamp 0)).software,
    (sampleEntry (clamp 0)).model, (sampleEntry (clamp 0)).backend⟩

theorem sampleEntry_key (best : CInt) : (sampleEntry best).key = sampleFingerprint.key := rfl

/-- Re-tuning the same machine: the load returns the older best index. -/
theorem resave_not_lastWriteWins : ¬LastWriteWins treeCodec
    [.save (sampleEntry (clamp 0)) true, .save (sampleEntry (clamp 1)) true] sampleFingerprint :=
  not_lastWriteWins_of_resave treeCodec (sampleEntry_key _) (sampleEntry_key _) fun h =>
    absurd (congrArg Stored.bestIdx h) (by decide)

end TuneCache

end LibEmbedding
