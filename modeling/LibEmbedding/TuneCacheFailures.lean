import LibEmbedding.Foundation.Runs
import LibEmbedding.TuneCacheHistory

/-!
# Saves that fail

`lembed_tune_cache_save` rewrites its file in place and looks at nothing but whether the file
opens. Reading may fail, a part of the document only may reach the file, and the process may
stop anywhere.
-/

namespace LibEmbedding

open Foundation

namespace TuneCache

variable {Text : Type}

/-- What is in a file of which the first `n` bytes were written. A document that is cut short is
no document. -/
structure Cuts (codec : Cjson Text) where
  size : Text → Nat
  cut : Text → Nat → Text
  cut_all : ∀ text n, size text ≤ n → cut text n = text
  cut_document : ∀ members n, n < size (codec.print (.object members)) →
    codec.empty (cut (codec.print (.object members)) n) = true ∨
      codec.parse (cut (codec.print (.object members)) n) = none

/-- One call of `lembed_tune_cache_save`: whether the old file is read, whether the file opens for
writing, how many bytes get there, and whether the process stops in the call. -/
structure SaveAct where
  entry : TuneEntry
  reads : Bool
  opens : Bool
  written : Nat
  stops : Bool

/-- What a call returns, if it does. -/
def SaveAct.status (a : SaveAct) : Option Status :=
  if a.stops then none else some (if a.opens then .ok else .io)

/-- The file, and the entries that saves reported as saved, the latest of each key. -/
structure Saves (Text : Type) where
  file : Option Text
  promised : List TuneEntry

namespace Saves

variable (codec : Cjson Text) (cuts : Cuts codec)

def root (s : Saves Text) (a : SaveAct) : Json :=
  Json.addItemToObject a.entry.key (entryItem a.entry)
    (loadCache codec (if a.reads then s.file else none))

def next (s : Saves Text) (a : SaveAct) : Saves Text where
  file := if a.opens then some (cuts.cut (codec.print (s.root codec a)) a.written) else s.file
  promised :=
    if a.status = some .ok then a.entry :: s.promised.filter (·.key ≠ a.entry.key)
    else s.promised

def Step (s : Saves Text) (a : SaveAct) (t : Saves Text) : Prop := t = s.next codec cuts a

/-- What `lembed_tune_cache_load` finds for the fingerprints of an entry. -/
def loadStored (file : Option Text) (entry : TuneEntry) : Option Stored :=
  (TuneCache.load codec entry.hardware entry.software entry.model entry.backend file).2.map
    TuneEntry.stored

/-- Every entry that was reported as saved is loaded. -/
def Keeps (s : Saves Text) : Prop :=
  ∀ p ∈ s.promised, loadStored codec s.file p = some p.stored

/-- All of the document reaches the file. -/
def WritesAll (s : Saves Text) (a : SaveAct) : Prop :=
  cuts.size (codec.print (s.root codec a)) ≤ a.written

/-- A save that opens the file writes all of it, having read what was there, and nothing else is
stored under its key when it returns. Short of that, there is nothing to lose. -/
def Careful (s : Saves Text) (a : SaveAct) : Prop :=
  a.opens = true →
    (s.WritesAll codec cuts a →
      (a.reads = true → a.stops = false →
        ∀ found, loadStored codec s.file a.entry = some found → found = a.entry.stored) ∧
      (a.reads = false →
        ∀ p ∈ s.promised, p.key = a.entry.key ∧ (a.stops = true → p.stored = a.entry.stored))) ∧
    (¬s.WritesAll codec cuts a → a.stops = true ∧ s.promised = [])

/-- With no failure a step is `lembed_tune_cache_save`. -/
theorem next_save (s : Saves Text) (a : SaveAct) (hreads : a.reads = true)
    (hstops : a.stops = false) (hall : s.WritesAll codec cuts a) :
    a.status = some (save codec a.opens a.entry s.file).1 ∧
      (s.next codec cuts a).file = (save codec a.opens a.entry s.file).2 := by
  have hroot : s.root codec a = Json.addItemToObject a.entry.key (entryItem a.entry)
      (loadCache codec s.file) := by rw [root, hreads, if_pos rfl]
  unfold save writeFile next SaveAct.status
  rw [← hroot, hstops]
  cases a.opens with
  | false => exact ⟨rfl, rfl⟩
  | true => exact ⟨rfl, congrArg some (cuts.cut_all _ _ hall)⟩

variable {codec} {cuts}

-- ---------------------------------------------------------------------------
-- The document
-- ---------------------------------------------------------------------------

/-- What is loaded is the first entry of the key. -/
theorem loadStored_document {file : Option Text} (h : loadCache codec file = document entries)
    (entry : TuneEntry) :
    loadStored codec file entry = (entries.find? (·.key = entry.key)).map TuneEntry.stored := by
  have hitem := getObjectItem_document entries
    ⟨entry.hardware, entry.software, entry.model, entry.backend⟩
  have hkey : Fingerprint.key ⟨entry.hardware, entry.software, entry.model, entry.backend⟩ =
      entry.key := rfl
  rw [hkey, ← h] at hitem
  unfold loadStored load
  rw [show tuneCacheKey (some entry.hardware) (some entry.software) (some entry.model)
    (some entry.backend) = entry.key from rfl]
  dsimp only
  rw [hitem]
  cases entries.find? (·.key = entry.key) with
  | none => rfl
  | some found =>
    rw [Option.map_some, Option.map_some, readEntry_entryItem]
    rfl

theorem root_document {s : Saves Text} (h : loadCache codec s.file = document entries)
    (a : SaveAct) :
    s.root codec a = document ((if a.reads then entries else []) ++ [a.entry]) := by
  unfold root
  cases a.reads with
  | false => rfl
  | true =>
    rw [if_pos rfl, if_pos rfl, h]
    simp [document, Json.addItemToObject]

/-- A document that is written from end to end is read back. -/
theorem loadCache_whole {s : Saves Text} {a : SaveAct}
    (h : loadCache codec s.file = document entries) (hopens : a.opens = true)
    (hall : s.WritesAll codec cuts a) :
    loadCache codec (s.next codec cuts a).file =
      document ((if a.reads then entries else []) ++ [a.entry]) := by
  rw [next, hopens, if_pos rfl, cuts.cut_all _ _ hall, loadCache_print, root_document h]

/-- One that is cut short is read as no entries at all. -/
theorem loadCache_short {s : Saves Text} {a : SaveAct}
    (h : loadCache codec s.file = document entries) (hopens : a.opens = true)
    (hshort : ¬s.WritesAll codec cuts a) :
    loadCache codec (s.next codec cuts a).file = document [] := by
  rw [WritesAll, root_document h] at hshort
  rw [next, hopens, if_pos rfl, root_document h, loadCache]
  rcases cuts.cut_document _ a.written (not_le.mp hshort) with hempty | hparse
  · rw [document, hempty, if_pos rfl]
    rfl
  · rw [document, hparse, Option.getD_none, ite_self]
    rfl

theorem file_closed {s : Saves Text} {a : SaveAct} (hopens : a.opens = false) :
    (s.next codec cuts a).file = s.file := by
  rw [next, hopens]
  rfl

/-- The file holds a list of entries, in every reachable state. -/
def Readable (codec : Cjson Text) (s : Saves Text) : Prop :=
  ∃ entries, loadCache codec s.file = document entries

theorem readable_step {s t : Saves Text} {a : SaveAct} (h : s.Readable codec)
    (hstep : Step codec cuts s a t) : t.Readable codec := by
  obtain ⟨entries, hentries⟩ := h
  rw [hstep]
  cases hopens : a.opens with
  | false => exact ⟨entries, by rw [file_closed hopens, hentries]⟩
  | true =>
    by_cases hall : s.WritesAll codec cuts a
    · exact ⟨_, loadCache_whole hentries hopens hall⟩
    · exact ⟨[], loadCache_short hentries hopens hall⟩

-- ---------------------------------------------------------------------------
-- One save
-- ---------------------------------------------------------------------------

theorem promised_ok {s : Saves Text} {a : SaveAct} (hopens : a.opens = true)
    (hstops : a.stops = false) :
    (s.next codec cuts a).promised = a.entry :: s.promised.filter (·.key ≠ a.entry.key) := by
  rw [next, SaveAct.status, hstops, hopens]
  rfl

theorem promised_stopped {s : Saves Text} {a : SaveAct} (hstops : a.stops = true) :
    (s.next codec cuts a).promised = s.promised := by
  rw [next, SaveAct.status, hstops]
  rfl

theorem promised_closed {s : Saves Text} {a : SaveAct} (hopens : a.opens = false) :
    (s.next codec cuts a).promised = s.promised := by
  rw [next, SaveAct.status, hopens]
  cases a.stops <;> rfl

/-- What is promised after a save is the new entry, and the others under other keys. -/
theorem keeps_ok {s : Saves Text} {a : SaveAct} (hopens : a.opens = true)
    (hstops : a.stops = false) :
    Keeps codec (s.next codec cuts a) ↔
      loadStored codec (s.next codec cuts a).file a.entry = some a.entry.stored ∧
      ∀ p ∈ s.promised, p.key ≠ a.entry.key →
        loadStored codec (s.next codec cuts a).file p = some p.stored := by
  unfold Keeps
  rw [promised_ok hopens hstops, List.forall_mem_cons]
  simp only [List.mem_filter, decide_eq_true_eq, and_imp]

theorem keeps_short {s : Saves Text} {a : SaveAct} (h : loadCache codec s.file = document entries)
    (hopens : a.opens = true) (hshort : ¬s.WritesAll codec cuts a) :
    Keeps codec (s.next codec cuts a) ↔ a.stops = true ∧ s.promised = [] := by
  have hnone (p : TuneEntry) : loadStored codec (s.next codec cuts a).file p = none := by
    rw [loadStored_document (loadCache_short h hopens hshort)]
    rfl
  cases hstops : a.stops with
  | false =>
    rw [keeps_ok hopens hstops, hnone]
    exact iff_of_false (fun hnew => nomatch hnew.1) (fun hold => nomatch hold.1)
  | true =>
    unfold Keeps
    rw [promised_stopped hstops, and_iff_right rfl, List.eq_nil_iff_forall_not_mem]
    refine forall_congr' fun p => ?_
    rw [hnone]
    exact imp_congr_right fun _ => iff_of_false nofun id

theorem keeps_reads {s : Saves Text} {a : SaveAct} (h : loadCache codec s.file = document entries)
    (hkeeps : s.Keeps codec) (hopens : a.opens = true) (hall : s.WritesAll codec cuts a)
    (hreads : a.reads = true) :
    Keeps codec (s.next codec cuts a) ↔ (a.stops = false →
      ∀ found, loadStored codec s.file a.entry = some found → found = a.entry.stored) := by
  have hafter := loadCache_whole h hopens hall
  rw [hreads, if_pos rfl] at hafter
  -- The entries that were there are still the first of their keys.
  have hold (p : TuneEntry) (hp : loadStored codec s.file p = some p.stored) :
      loadStored codec (s.next codec cuts a).file p = some p.stored := by
    rw [loadStored_document h, Option.map_eq_some_iff] at hp
    obtain ⟨first, hfirst, hstored⟩ := hp
    rw [loadStored_document hafter, List.find?_append, hfirst, Option.some_or, Option.map_some,
      hstored]
  cases hstops : a.stops with
  | true =>
    refine iff_of_true ?_ nofun
    unfold Keeps
    rw [promised_stopped hstops]
    exact fun p hp => hold p (hkeeps p hp)
  | false =>
    rw [keeps_ok hopens hstops, and_iff_left fun p hp _ => hold p (hkeeps p hp),
      imp_iff_right rfl, loadStored_document hafter, loadStored_document h, List.find?_append]
    cases entries.find? (·.key = a.entry.key) with
    | none => simp
    | some first => simp

theorem keeps_unread {s : Saves Text} {a : SaveAct} (h : loadCache codec s.file = document entries)
    (hopens : a.opens = true) (hall : s.WritesAll codec cuts a) (hreads : a.reads = false) :
    Keeps codec (s.next codec cuts a) ↔ ∀ p ∈ s.promised,
      p.key = a.entry.key ∧ (a.stops = true → p.stored = a.entry.stored) := by
  have hafter := loadCache_whole h hopens hall
  rw [hreads, if_neg Bool.false_ne_true, List.nil_append] at hafter
  have hload (p : TuneEntry) : loadStored codec (s.next codec cuts a).file p =
      if a.entry.key = p.key then some a.entry.stored else none := by
    rw [loadStored_document hafter, List.find?_singleton]
    by_cases hkey : a.entry.key = p.key <;> simp [hkey]
  cases hstops : a.stops with
  | false =>
    rw [keeps_ok hopens hstops, hload, if_pos rfl, and_iff_right rfl]
    refine forall₂_congr fun p _ => ?_
    rw [hload]
    by_cases hkey : p.key = a.entry.key
    · simp [hkey]
    · simp [hkey, Ne.symm hkey]
  | true =>
    unfold Keeps
    rw [promised_stopped hstops]
    refine forall₂_congr fun p _ => ?_
    rw [hload]
    by_cases hkey : p.key = a.entry.key
    · simp [hkey, eq_comm]
    · simp [hkey, Ne.symm hkey]

theorem keeps_step {s t : Saves Text} {a : SaveAct} (hreadable : s.Readable codec)
    (hkeeps : s.Keeps codec) (hstep : Step codec cuts s a t) :
    t.Keeps codec ↔ s.Careful codec cuts a := by
  obtain ⟨entries, h⟩ := hreadable
  rw [hstep]
  unfold Careful
  cases hopens : a.opens with
  | false =>
    refine iff_of_true ?_ nofun
    unfold Keeps
    rw [promised_closed hopens, file_closed hopens]
    exact hkeeps
  | true =>
    rw [imp_iff_right rfl]
    by_cases hall : s.WritesAll codec cuts a
    · cases hreads : a.reads with
      | true =>
        rw [keeps_reads h hkeeps hopens hall hreads]
        exact ⟨fun hsame => ⟨fun _ => ⟨fun _ => hsame, nofun⟩, fun hshort => absurd hall hshort⟩,
          fun hcareful => (hcareful.1 hall).1 rfl⟩
      | false =>
        rw [keeps_unread h hopens hall hreads]
        exact ⟨fun hsame => ⟨fun _ => ⟨nofun, fun _ => hsame⟩, fun hshort => absurd hall hshort⟩,
          fun hcareful => (hcareful.1 hall).2 rfl⟩
    · rw [keeps_short h hopens hall]
      exact ⟨fun hnothing => ⟨fun hwhole => absurd hwhole hall, fun _ => hnothing⟩,
        fun hcareful => hcareful.2 hall⟩

/-- No file, nothing promised. -/
def start (Text : Type) : Saves Text := ⟨none, []⟩

theorem readable_start (codec : Cjson Text) : (start Text).Readable codec := ⟨[], rfl⟩

theorem keeps_start (codec : Cjson Text) : (start Text).Keeps codec :=
  fun _ hp => absurd hp List.not_mem_nil

/-- Texts that are trees: one that is cut short is no tree. -/
def treeCuts : Cuts treeCodec where
  size text := if text.isSome then 1 else 0
  cut text n := if n = 0 then none else text
  cut_all text n h := by
    cases text with
    | none => exact ite_self none
    | some tree => exact if_neg (Nat.one_le_iff_ne_zero.mp h)
  cut_document members n h := .inl (by
    rw [if_pos (Nat.lt_one_iff.mp h)]
    rfl)

/-- A second machine's result. -/
def otherEntry : TuneEntry := { sampleEntry (clamp 0) with backend := ascii "llama" }

/-- One save of each; the process stops when the second has opened the file. -/
def stoppedSave : List SaveAct := [
  { entry := sampleEntry (clamp 0), reads := true, opens := true, written := 1, stops := false },
  { entry := otherEntry, reads := true, opens := true, written := 0, stops := true }]

/-- A save whose bytes do not get to the file reports success. -/
def shortSave : List SaveAct := [
  { entry := sampleEntry (clamp 0), reads := true, opens := true, written := 0, stops := false }]

end Saves

end TuneCache

end LibEmbedding
