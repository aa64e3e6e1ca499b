import LibEmbedding.CjsonRoundTrip
import LibEmbedding.TuneCacheHistory

/-!
# The text of the tuning cache

`autotune_cache_impl.hpp` over the bytes that cJSON writes and reads. Loads after any history of
saves and clears give what the first save of the key has stored, floats included.
-/

namespace LibEmbedding

open Foundation JsonText

/-- `(float)v->valuedouble` in a configuration that has been read. -/
def TuneConfig.narrow (c : TuneConfig) : TuneConfig :=
  { c with throughputDocsSec := toFloat c.throughputDocsSec
           latencyP50Ms := toFloat c.latencyP50Ms
           latencyP95Ms := toFloat c.latencyP95Ms }

def TuneEntry.narrow (entry : TuneEntry) : TuneEntry :=
  { entry with configs := entry.configs.map TuneConfig.narrow
               bounded := by simpa using entry.bounded }

namespace TuneCache.File

-- ---------------------------------------------------------------------------
-- The file
-- ---------------------------------------------------------------------------

/-- `load_cache` -/
def loadCache (file : Option Bytes) : Except JsonText.Stop Json :=
  match file with
  | none => .ok (.object [])
  | some content =>
    if content = [] then .ok (.object []) else (parse content).map (·.getD (.object []))

/-- `save_cache` -/
def saveCache (opens : Bool) (root : Json) (file : Option Bytes) : Bool × Option Bytes :=
  match print root with
  | none => (false, file)
  | some json => writeFile opens json file

/-- `lembed_tune_cache_load` -/
def load (fp : Fingerprint) (file : Option Bytes) :
    Except JsonText.Stop (Status × Option TuneEntry) := do
  let root ← loadCache file
  match Json.getObjectItem (some root) fp.key with
  | none => return (.cacheMiss, none)
  | some item => return (.ok, some (readEntry item).narrow)

/-- `lembed_tune_cache_save` -/
def save (opens : Bool) (entry : TuneEntry) (file : Option Bytes) :
    Except JsonText.Stop (Status × Option Bytes) := do
  let root := Json.addItemToObject entry.key (entryItem entry) (← loadCache file)
  let (ok, file) := saveCache opens root file
  return (if ok then .ok else .io, file)

/-- The file one call leaves. -/
def step (file : Option Bytes) : Op → Except JsonText.Stop (Option Bytes)
  | .save entry opens => (save opens entry file).map Prod.snd
  | .load _ => .ok file
  | .clear => .ok clear.2

def run (ops : List Op) : Except JsonText.Stop (Option Bytes) := ops.foldlM step none

-- ---------------------------------------------------------------------------
-- Entries
-- ---------------------------------------------------------------------------

/-- The configuration as the text says it. -/
def rereadConfig (c : TuneConfig) : TuneConfig :=
  { c with throughputDocsSec := rereadNumber c.throughputDocsSec
           latencyP50Ms := rereadNumber c.latencyP50Ms
           latencyP95Ms := rereadNumber c.latencyP95Ms }

def rereadEntry (entry : TuneEntry) : TuneEntry :=
  { entry with
    hardware := { entry.hardware with
      cpuName := cstr entry.hardware.cpuName, osName := cstr entry.hardware.osName }
    software := ⟨cstr entry.software.libembedding, cstr entry.software.llamaCpp⟩
    model := { entry.model with
      modelId := cstr entry.model.modelId, quantization := cstr entry.model.quantization }
    backend := cstr entry.backend
    configs := entry.configs.map rereadConfig
    bounded := by simpa using entry.bounded }

theorem reread_configItem (c : TuneConfig) :
    reread (configItem c) = configItem (rereadConfig c) := by
  simp only [configItem, reread, rereadMembers, rereadNumber_int, rereadConfig]
  rfl

theorem reread_entryItem (entry : TuneEntry) :
    reread (entryItem entry) = entryItem (rereadEntry entry) := by
  have hconfigs : rereadElements (entry.configs.map configItem) =
      (rereadEntry entry).configs.map configItem := by
    rw [rereadElements_eq, List.map_map, rereadEntry, List.map_map]
    exact List.map_congr_left fun c _ => reread_configItem c
  simp only [entryItem, reread, rereadMembers, rereadNumber_int, hconfigs]
  rfl

/-- A configuration whose measurements can be printed. -/
def OrdinaryConfig (c : TuneConfig) : Prop :=
  Ordinary c.throughputDocsSec ∧ Ordinary c.latencyP50Ms ∧ Ordinary c.latencyP95Ms

theorem printable_configItem (h : OrdinaryConfig c) (hdepth : depth < nestingLimit) :
    Printable depth (configItem c) := by
  obtain ⟨hthroughput, hp50, hp95⟩ := h
  exact ⟨hdepth, ordinary_int _, ordinary_int _, ordinary_int _, hthroughput, hp50, hp95, trivial⟩

theorem printable_entryItem {entry : TuneEntry} (h : ∀ c ∈ entry.configs, OrdinaryConfig c) :
    Printable 1 (entryItem entry) := by
  have hconfigs : Printable 2 (.array (entry.configs.map configItem)) := by
    refine ⟨by decide, printableElements_iff.mpr fun item hitem => ?_⟩
    obtain ⟨c, hc, rfl⟩ := List.mem_map.mp hitem
    exact printable_configItem (h c hc) (by decide)
  exact ⟨by decide, ordinary_int _, trivial, trivial, ordinary_int _, ordinary_int _, hconfigs,
    trivial, trivial, trivial, trivial, trivial, trivial⟩

/-- A configuration whose measurements are finite floats. -/
def Finite (c : TuneConfig) : Prop :=
  FiniteFloat c.throughputDocsSec ∧ FiniteFloat c.latencyP50Ms ∧ FiniteFloat c.latencyP95Ms

theorem Finite.ordinary (h : Finite c) : OrdinaryConfig c :=
  ⟨h.1.ordinary, h.2.1.ordinary, h.2.2.ordinary⟩

theorem Finite.ordinary_reread (h : Finite c) : OrdinaryConfig (rereadConfig c) :=
  ⟨h.1.ordinary_reread, h.2.1.ordinary_reread, h.2.2.ordinary_reread⟩

theorem Finite.narrow_reread (h : Finite c) : (rereadConfig c).narrow = c := by
  obtain ⟨hthroughput, hp50, hp95⟩ := h
  rw [TuneConfig.narrow, rereadConfig, toFloat_rereadNumber hthroughput.ordinary hthroughput.1,
    toFloat_rereadNumber hp50.ordinary hp50.1, toFloat_rereadNumber hp95.ordinary hp95.1]

/-- What is read from the text of an entry is what the entry stores. -/
theorem stored_reread {entry : TuneEntry} (h : ∀ c ∈ entry.configs, Finite c) :
    (readEntry (reread (entryItem entry))).narrow.stored = entry.stored := by
  rw [reread_entryItem, readEntry_entryItem]
  simp only [TuneEntry.stored, TuneEntry.narrow, rereadEntry, List.map_map, Stored.mk.injEq,
    and_true]
  exact (List.map_congr_left fun c hc => (h c hc).narrow_reread).trans (List.map_id' _)

-- ---------------------------------------------------------------------------
-- Histories
-- ---------------------------------------------------------------------------

/-- The document that the text of saved entries is read as. -/
def rereadDocument (entries : List TuneEntry) : Json :=
  .object (entries.map fun entry => (entry.key, entryItem (rereadEntry entry)))

theorem legible_key (entry : TuneEntry) : Legible entry.key := by
  have hdigit : ∀ n < 16, LibEmbedding.hexDigit n ≠ 0 := by decide
  intro hzero
  obtain ⟨i, -, hi⟩ := List.mem_map.mp hzero
  exact hdigit _ (Nat.mod_lt _ (by decide)) hi

theorem reread_document {entries : List TuneEntry}
    (h : ∀ entry ∈ entries, ∀ c ∈ entry.configs, Finite c) :
    reread (rereadDocument entries) = rereadDocument entries := by
  rw [rereadDocument, reread, rereadMembers_eq, List.map_map]
  congr 1
  apply List.map_congr_left
  intro entry hentry
  have hprintable := printable_entryItem fun c hc => (h entry hentry c hc).ordinary
  simp only [Function.comp, ← reread_entryItem, reread_reread _ hprintable,
    cstr_legible (legible_key entry)]

theorem printable_document {entries : List TuneEntry}
    (h : ∀ entry ∈ entries, ∀ c ∈ entry.configs, Finite c) :
    Printable 0 (rereadDocument entries) := by
  refine ⟨by decide, printableMembers_iff.mpr fun member hmember => ?_⟩
  obtain ⟨entry, hentry, rfl⟩ := List.mem_map.mp hmember
  apply printable_entryItem
  intro c hc
  obtain ⟨measured, hmeasured, rfl⟩ := List.mem_map.mp hc
  exact (h entry hentry measured hmeasured).ordinary_reread

/-- The document with one more entry. -/
theorem printable_addItem {entries : List TuneEntry} {entry : TuneEntry}
    (h : ∀ entry ∈ entries, ∀ c ∈ entry.configs, Finite c)
    (hentry : ∀ c ∈ entry.configs, Finite c) :
    Printable 0 (Json.addItemToObject entry.key (entryItem entry) (rereadDocument entries)) := by
  obtain ⟨hdepth, hmembers⟩ := printable_document h
  refine ⟨hdepth, printableMembers_iff.mpr fun member hmember => ?_⟩
  rcases List.mem_append.mp hmember with hmember | hmember
  · exact printableMembers_iff.mp hmembers member hmember
  · obtain rfl := List.mem_singleton.mp hmember
    exact printable_entryItem fun c hc => (hentry c hc).ordinary

theorem reread_addItem {entries : List TuneEntry} (entry : TuneEntry)
    (h : ∀ entry ∈ entries, ∀ c ∈ entry.configs, Finite c) :
    reread (Json.addItemToObject entry.key (entryItem entry) (rereadDocument entries)) =
      rereadDocument (entries ++ [entry]) := by
  have hsame := reread_document h
  simp only [rereadDocument, Json.addItemToObject, reread, rereadMembers_eq, List.map_append,
    Json.object.injEq] at hsame ⊢
  rw [hsame, List.map_singleton, List.map_singleton, reread_entryItem,
    cstr_legible (legible_key entry)]

/-- What is saved is the next document. -/
theorem loadCache_saveCache {root : Json} (h : Printable 0 root) (file : Option Bytes) :
    ∃ text, saveCache true root file = (true, some text) ∧
      loadCache (some text) = .ok (reread root) := by
  obtain ⟨text, htext, hparse⟩ := parse_printed true h
  obtain ⟨c, rest, rfl, -⟩ := printValue_opens true 0 root htext
  refine ⟨c :: rest, ?_, ?_⟩
  · rw [saveCache, print, htext]
    rfl
  · simp only [loadCache, if_neg (List.cons_ne_nil c rest), hparse]
    rfl

theorem saveCache_closed (root : Json) (file : Option Bytes) :
    saveCache false root file = (false, file) := by
  rw [saveCache]
  split <;> rfl

/-- Every entry that is saved has finite measurements. -/
def Measured (ops : List Op) : Prop :=
  ∀ entry opens, Op.save entry opens ∈ ops → ∀ c ∈ entry.configs, Finite c

theorem mem_saved (ops : List Op) : ∀ entry ∈ saved ops, ∃ opens, Op.save entry opens ∈ ops := by
  induction ops using List.reverseRecOn with
  | nil => simp [saved]
  | append_singleton ops op ih =>
    intro entry hentry
    rw [saved, List.foldl_append, ← saved] at hentry
    have hearlier (h : entry ∈ saved ops) : ∃ opens, Op.save entry opens ∈ ops ++ [op] := by
      obtain ⟨opens, hmem⟩ := ih entry h
      exact ⟨opens, List.mem_append_left _ hmem⟩
    cases op with
    | save new opens =>
      cases opens with
      | true =>
        rcases List.mem_append.mp hentry with hold | hnew
        · exact hearlier hold
        · obtain rfl := List.mem_singleton.mp hnew
          exact ⟨true, by simp⟩
      | false => exact hearlier hentry
    | load fp => exact hearlier hentry
    | clear => cases hentry

/-- The document after a history holds the saved entries in order. -/
theorem loadCache_run {ops : List Op} (h : Measured ops) :
    ∃ file, run ops = .ok file ∧ loadCache file = .ok (rereadDocument (saved ops)) := by
  induction ops using List.reverseRecOn with
  | nil => exact ⟨none, rfl, rfl⟩
  | append_singleton ops op ih =>
    have hbefore : Measured ops :=
      fun entry opens hmem => h entry opens (List.mem_append_left _ hmem)
    obtain ⟨file, hrun, hload⟩ := ih hbefore
    have hfinite : ∀ entry ∈ saved ops, ∀ c ∈ entry.configs, Finite c := by
      intro entry hentry
      obtain ⟨opens, hmem⟩ := mem_saved ops entry hentry
      exact hbefore entry opens hmem
    rw [run, List.foldlM_append, ← run, hrun, saved, List.foldl_append, ← saved]
    simp only [ok_bind, List.foldlM_cons, List.foldlM_nil, List.foldl_cons, List.foldl_nil]
    cases op with
    | save entry opens =>
      cases opens with
      | true =>
        have hentry := h entry true (by simp)
        obtain ⟨text, hsave, hnext⟩ := loadCache_saveCache (printable_addItem hfinite hentry) file
        refine ⟨some text, ?_, ?_⟩
        · simp only [step, save, hload, ok_bind, hsave]
          rfl
        · rw [hnext, reread_addItem entry hfinite]
          rfl
      | false =>
        refine ⟨file, ?_, hload⟩
        simp only [step, save, hload, ok_bind, saveCache_closed]
        rfl
    | load fp => exact ⟨file, rfl, hload⟩
    | clear => exact ⟨none, rfl, rfl⟩

end TuneCache.File

end LibEmbedding
