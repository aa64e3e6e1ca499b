import LibEmbedding.Foundation.Runs
import LibEmbedding.TextTuning

/-!
# Who a stored tuning is served to

Runs of the text tuner on one machine. The state remembers for every file the request whose
result it holds. Requests are served their own results exactly when no two entries that are tuned
for one corpus and mode share a code.
-/

namespace LibEmbedding

open Foundation

-- ---------------------------------------------------------------------------
-- A stored result read back
-- ---------------------------------------------------------------------------

/-- The fields of a stored result. -/
def tuningNames : List Bytes :=
  ["workers", "threads", "batch_size", "throughput_docs_sec", "latency_ms", "memory_mb"].map ascii

/-- A result whose numbers are read back. -/
structure TuningResult.Readable (result : TuningResult) : Prop where
  workers : FitsInt result.workers
  threads : FitsInt result.threads
  batchSize : FitsInt result.batchSize
  throughputDocsSec : (stod (showDouble result.throughputDocsSec)).isSome = true
  latencyMs : (stod (showDouble result.latencyMs)).isSome = true
  memoryMb : (stod (showDouble result.memoryMb)).isSome = true

theorem TuningResult.lines_noNewline (result : TuningResult) :
    ∀ line ∈ result.lines, 10 ∉ line := by
  intro line hline
  simp only [TuningResult.lines, List.mem_cons, List.not_mem_nil, or_false] at hline
  rcases hline with rfl | rfl | rfl | rfl | rfl | rfl
  · exact numberLine_noNewline (by decide) (numeral_showInt _) _
  · exact numberLine_noNewline (by decide) (numeral_showInt _) _
  · exact numberLine_noNewline (by decide) (numeral_showInt _) _
  · exact numberLine_noNewline (by decide) (numeral_showDouble _) _
  · exact numberLine_noNewline (by decide) (numeral_showDouble _) _
  · exact numberLine_noNewline (by decide) (numeral_showDouble _) _

namespace TuningRead

theorem readLine_other (h : OnlyField line name) (hname : name ∉ tuningNames) (st : TuningRead) :
    st.readLine line = st := by
  have hne (field : Bytes) (hfield : field ∈ tuningNames) : field ≠ name :=
    fun heq => hname (heq ▸ hfield)
  rw [readLine, h.int (by decide) (hne _ (by decide)), h.int (by decide) (hne _ (by decide)),
    h.int (by decide) (hne _ (by decide)), h.number (by decide) (hne _ (by decide)),
    h.number (by decide) (hne _ (by decide)), h.number (by decide) (hne _ (by decide))]

theorem foldl_identity {id : CacheIdentity} (hid : id.Legible) (st : TuningRead) :
    id.lines.foldl readLine st = st := by
  have hnames : ∀ name ∈ identityNames, name ∉ tuningNames := by decide
  refine foldl_skipped (fun line hline st => ?_) st
  obtain ⟨name, hname, honly⟩ := hid.onlyField line hline
  exact readLine_other honly (hnames name hname) st

/-- A field that is an integer counts, wherever it stands among the fields. -/
theorem found_int (hkey : key ∈ [ascii "workers", ascii "threads", ascii "batch_size"])
    (hn : FitsInt n) (st : TuningRead) (last : Bool) :
    (st.readLine (numberLine key (showInt n) last)).found = st.found + 1 := by
  have hread := fun hname : FieldName key => jsonInt_numberLine hname n hn.1 hn.2 last
  have honly := fun hname : FieldName key =>
    onlyField_numberLine hname (numeral_showInt n) last
  simp only [List.mem_cons, List.not_mem_nil, or_false] at hkey
  rcases hkey with rfl | rfl | rfl
  · rw [readLine, hread (by decide)]
  · rw [readLine, (honly (by decide)).int (by decide) (by decide), hread (by decide)]
  · rw [readLine, (honly (by decide)).int (by decide) (by decide),
      (honly (by decide)).int (by decide) (by decide), hread (by decide)]

theorem found_double
    (hkey : key ∈ [ascii "throughput_docs_sec", ascii "latency_ms", ascii "memory_mb"])
    (hx : (stod (showDouble x)).isSome = true) (st : TuningRead) (last : Bool) :
    (st.readLine (numberLine key (showDouble x) last)).found = st.found + 1 := by
  obtain ⟨v, hv⟩ := Option.isSome_iff_exists.mp hx
  have hread (hname : FieldName key) : jsonNumber (numberLine key (showDouble x) last) key = some v := by
    rw [jsonNumber_numberLine hname hname (numeral_showDouble x), if_pos rfl, hv]
  have honly := fun hname : FieldName key =>
    onlyField_numberLine hname (numeral_showDouble x) last
  simp only [List.mem_cons, List.not_mem_nil, or_false] at hkey
  rcases hkey with rfl | rfl | rfl
  · rw [readLine, (honly (by decide)).int (by decide) (by decide),
      (honly (by decide)).int (by decide) (by decide),
      (honly (by decide)).int (by decide) (by decide), hread (by decide)]
  · rw [readLine, (honly (by decide)).int (by decide) (by decide),
      (honly (by decide)).int (by decide) (by decide),
      (honly (by decide)).int (by decide) (by decide),
      (honly (by decide)).number (by decide) (by decide), hread (by decide)]
  · rw [readLine, (honly (by decide)).int (by decide) (by decide),
      (honly (by decide)).int (by decide) (by decide),
      (honly (by decide)).int (by decide) (by decide),
      (honly (by decide)).number (by decide) (by decide),
      (honly (by decide)).number (by decide) (by decide), hread (by decide)]

/-- All fields of a readable result are found. -/
theorem found_document {id : CacheIdentity} {result : TuningResult} (hid : id.Legible)
    (hresult : result.Readable) :
    ((linesOf (textCacheDocument id result)).foldl readLine {}).found = tuningFields := by
  rw [textCacheDocument, linesOf_entry hid result.lines_noNewline, List.foldl_cons,
    readLine_other (onlyField_unquoted (by decide)) (by decide), List.foldl_append,
    foldl_identity hid, List.foldl_append, List.foldl_cons, List.foldl_nil,
    readLine_other (onlyField_unquoted (by decide)) (by decide)]
  simp only [TuningResult.lines, List.foldl_cons, List.foldl_nil]
  rw [found_double (by decide) hresult.memoryMb, found_double (by decide) hresult.latencyMs,
    found_double (by decide) hresult.throughputDocsSec, found_int (by decide) hresult.batchSize,
    found_int (by decide) hresult.threads, found_int (by decide) hresult.workers]
  rfl

end TuningRead

theorem readTextCache_owner {id want : CacheIdentity} (hid : id.Legible)
    (h : readTextCache (textCacheDocument id result) want = some found) : id = want := by
  unfold readTextCache at h
  split at h
  · rename_i hmatches
    rw [textCacheDocument, CacheIdentity.matches_entry hid result.lines_noNewline] at hmatches
    exact of_decide_eq_true hmatches
  · cases h

theorem readTextCache_own {id : CacheIdentity} (hid : id.Legible) (hresult : result.Readable) :
    (readTextCache (textCacheDocument id result) id).isSome = true := by
  have hmatches : CacheIdentity.matches (textCacheDocument id result) id = true := by
    rw [textCacheDocument, CacheIdentity.matches_entry hid result.lines_noNewline]
    exact decide_eq_true rfl
  rw [readTextCache, if_pos hmatches]
  dsimp only
  rw [TuningRead.found_document hid hresult, if_neg (lt_irrefl _)]
  rfl

-- ---------------------------------------------------------------------------
-- Runs
-- ---------------------------------------------------------------------------

/-- A machine has at least the core that asks. -/
structure TuningHost extends TextHost where
  coresPos : 1 ≤ machine.logicalCores

/-- The files, and for each one the request whose result it holds. -/
structure TuningState where
  files : AutotuneFiles
  storedFor : Bytes → Option TuningRequest

def TuningState.start : TuningState := ⟨[], fun _ => none⟩

/-- A call, what its benchmarks come to, and what becomes of the file it writes. -/
structure TuningCall where
  request : TuningRequest
  benchmark : TuningConfig → ℚ × ℚ
  saving : Saving

namespace TuningHost

variable (host : TuningHost)

def path (id : CacheIdentity) : Bytes := textCachePath host.machine host.autotuneDir id

/-- The identity under which a call stores a result, and the result, if it stores one. -/
def fresh (files : AutotuneFiles) (call : TuningCall) : Option (CacheIdentity × TuningResult) := do
  let info ← host.registry[call.request.model]?
  let id := call.request.identity info
  if call.request.benchCorpus = [] ∨ (host.storedTuning files id).isSome = true then none
  else (host.freshTuning call.request.mode call.benchmark).map fun best => (id, best)

/-- What becomes of the memory of whose result a file holds. -/
def remember (owners : Bytes → Option TuningRequest) (path : Bytes) (request : TuningRequest) :
    Saving → Bytes → Option TuningRequest
  | .stored => Function.update owners path (some request)
  | .kept => owners
  | .lost => Function.update owners path none

def tune (st : TuningState) (call : TuningCall) : TuningState where
  files := (host.autotuneText st.files call.request call.benchmark call.saving).2
  storedFor :=
    match host.fresh st.files call with
    | none => st.storedFor
    | some (id, _) => remember st.storedFor (host.path id) call.request call.saving

/-- One call after another. -/
def Tunes (st : TuningState) (call : TuningCall) (st' : TuningState) : Prop :=
  st' = host.tune st call

/-- A call that finds a stored result finds one that was stored for its own request. -/
def ServedOwn (st : TuningState) (call : TuningCall) : Prop :=
  ∀ info, host.registry[call.request.model]? = some info →
    (host.storedTuning st.files (call.request.identity info)).isSome = true →
    st.storedFor (host.path (call.request.identity info)) = some call.request

/-- All runs that make nothing but the requests serve them nothing but their own results. -/
def ServesOwn (requests : Set TuningRequest) : Prop :=
  ∀ history : List TuningCall, (∀ call ∈ history, call.request ∈ requests) →
    EveryStep host.Tunes TuningState.start history host.ServedOwn

/-- The hash tells the corpora of the requests apart. -/
def HashTells (requests : Set TuningRequest) : Prop :=
  ∀ r ∈ requests, ∀ r' ∈ requests,
    corpusFingerprint r.benchCorpus = corpusFingerprint r'.benchCorpus →
    r.benchCorpus = r'.benchCorpus

/-- No two entries that are tuned for one corpus and mode share a code. -/
def CodesTell (requests : Set TuningRequest) : Prop :=
  ∀ r ∈ requests, ∀ r' ∈ requests, ∀ info info', host.registry[r.model]? = some info →
    host.registry[r'.model]? = some info' → info.modelCode = info'.modelCode →
    r.corpus = r'.corpus → r.mode = r'.mode → r.model = r'.model

variable {host}

-- ---------------------------------------------------------------------------
-- One call
-- ---------------------------------------------------------------------------

theorem legible_identity (request : TuningRequest) (info : TextModelInfo) :
    (request.identity info).Legible where
  model := info.plainCode
  variant := by
    unfold TuningRequest.identity textCacheIdentity
    dsimp only
    split <;> decide
  corpus := plain_hex16 _
  objective := Nat.one_lt_two_pow (by decide)
  mode := by
    unfold TuningRequest.identity textCacheIdentity
    dsimp only
    cases request.mode with
    | quick => exact Nat.pow_pos Nat.two_pos
    | full => exact Nat.one_lt_two_pow (by decide)

/-- A call writes what it finds out and nothing else. -/
theorem files_tune (host : TuningHost) (st : TuningState) (call : TuningCall) :
    (host.tune st call).files =
      match host.fresh st.files call with
      | none => st.files
      | some (id, best) => st.files.write (host.path id) (textCacheDocument id best) call.saving := by
  unfold tune TextHost.autotuneText fresh
  dsimp only
  cases hinfo : host.registry[call.request.model]? with
  | none => rfl
  | some info =>
    simp only [Option.bind_eq_bind, Option.bind_some]
    by_cases hcorpus : call.request.benchCorpus = []
    · rw [if_pos hcorpus, if_pos (.inl hcorpus)]
    · rw [if_neg hcorpus]
      cases hstored : host.storedTuning st.files (call.request.identity info) with
      | some cached => simp [hcorpus]
      | none =>
        cases hfresh : host.freshTuning call.request.mode call.benchmark with
        | none => simp [hcorpus]
        | some best => simp [hcorpus, path]

theorem fresh_some {id : CacheIdentity} (h : host.fresh files call = some (id, best)) :
    ∃ info, host.registry[call.request.model]? = some info ∧ id = call.request.identity info := by
  simp only [fresh, Option.bind_eq_bind, Option.bind_eq_some_iff] at h
  obtain ⟨info, hinfo, hrest⟩ := h
  split at hrest
  · cases hrest
  · obtain ⟨best', -, heq⟩ := Option.map_eq_some_iff.mp hrest
    cases heq
    exact ⟨info, hinfo, rfl⟩

variable (host) in
/-- Every file holds a result of the request it is remembered for. -/
def Faithful (requests : Set TuningRequest) (st : TuningState) : Prop :=
  ∀ path content, st.files.read path = some content →
    ∃ r ∈ requests, ∃ info result, st.storedFor path = some r ∧
      host.registry[r.model]? = some info ∧ content = textCacheDocument (r.identity info) result

theorem tune_faithful (hst : host.Faithful requests st) (hcall : call.request ∈ requests) :
    host.Faithful requests (host.tune st call) := by
  intro path content hread
  rw [files_tune] at hread
  unfold tune
  dsimp only
  cases hfresh : host.fresh st.files call with
  | none =>
    rw [hfresh] at hread
    exact hst path content hread
  | some written =>
    obtain ⟨id, best⟩ := written
    obtain ⟨info, hinfo, rfl⟩ := fresh_some hfresh
    rw [hfresh] at hread
    dsimp only at hread ⊢
    by_cases hpath : path = host.path (call.request.identity info)
    · subst hpath
      rw [AutotuneFiles.read_write_self] at hread
      cases hsaving : call.saving with
      | stored =>
        rw [hsaving] at hread
        exact ⟨call.request, hcall, info, best, Function.update_self .., hinfo,
          (Option.some.inj hread).symm⟩
      | kept =>
        rw [hsaving] at hread
        exact hst _ content hread
      | lost =>
        rw [hsaving] at hread
        cases hread
    · rw [AutotuneFiles.read_write_other _ _ _ _ _ hpath] at hread
      obtain ⟨r, hr, info', result, howner, hentry, hcontent⟩ := hst path content hread
      refine ⟨r, hr, info', result, ?_, hentry, hcontent⟩
      cases call.saving with
      | stored => exact (Function.update_of_ne hpath ..).trans howner
      | kept => exact howner
      | lost => exact (Function.update_of_ne hpath ..).trans howner

-- ---------------------------------------------------------------------------
-- Identities
-- ---------------------------------------------------------------------------

theorem code_injective (h : AutotuneMode.code mode = AutotuneMode.code mode') : mode = mode' := by
  cases mode <;> cases mode' <;> first | rfl | exact absurd h (by decide)

/-- Requests with one identity have one code, corpus and mode. -/
theorem identity_injective {r r' : TuningRequest} {info info' : TextModelInfo}
    (hhash : corpusFingerprint r.benchCorpus = corpusFingerprint r'.benchCorpus →
      r.benchCorpus = r'.benchCorpus) (h : r.identity info = r'.identity info') :
    info.modelCode = info'.modelCode ∧ r.corpus = r'.corpus ∧ r.mode = r'.mode := by
  have hmode : r.mode = r'.mode := code_injective (congrArg CacheIdentity.mode h)
  refine ⟨congrArg CacheIdentity.model h, ?_, hmode⟩
  have hbench := hhash (congrArg CacheIdentity.corpus h)
  have hvariant : (if r.corpus = [] then ascii "synthetic" else ascii "custom") =
      if r'.corpus = [] then ascii "synthetic" else ascii "custom" :=
    congrArg CacheIdentity.variant h
  by_cases hleft : r.corpus = []
  · by_cases hright : r'.corpus = []
    · rw [hleft, hright]
    · rw [if_pos hleft, if_neg hright] at hvariant
      exact absurd hvariant (by decide)
  · by_cases hright : r'.corpus = []
    · rw [if_neg hleft, if_pos hright] at hvariant
      exact absurd hvariant (by decide)
    · rwa [TuningRequest.benchCorpus, if_neg hleft, TuningRequest.benchCorpus, if_neg hright]
        at hbench

theorem TuningRequest_ext {r r' : TuningRequest} (hmodel : r.model = r'.model)
    (hcorpus : r.corpus = r'.corpus) (hmode : r.mode = r'.mode) : r = r' := by
  cases r
  cases r'
  obtain rfl := hmodel
  obtain rfl := hcorpus
  obtain rfl := hmode
  rfl

theorem servedOwn_of_faithful (hst : host.Faithful requests st) (hhash : HashTells requests)
    (hcodes : host.CodesTell requests) (hcall : call.request ∈ requests) :
    host.ServedOwn st call := by
  obtain ⟨request, benchmark, saving⟩ := call
  intro info hinfo hserved
  obtain ⟨found, hfound⟩ := Option.isSome_iff_exists.mp hserved
  obtain ⟨content, hread, hload⟩ := Option.bind_eq_some_iff.mp hfound
  obtain ⟨r, hr, info', result, howner, hinfo', rfl⟩ := hst _ content hread
  obtain ⟨hcode, hcorpus, hmode⟩ := identity_injective (hhash r hr request hcall)
    (readTextCache_owner (legible_identity r info') hload)
  have hmodel := hcodes r hr request hcall info' info hinfo' hinfo hcode hcorpus hmode
  obtain rfl := TuningRequest_ext hmodel hcorpus hmode
  exact howner

-- ---------------------------------------------------------------------------
-- All runs
-- ---------------------------------------------------------------------------

theorem start_faithful (host : TuningHost) (requests : Set TuningRequest) :
    host.Faithful requests TuningState.start := nofun

theorem servesOwn_of_codesTell (hhash : HashTells requests) (hcodes : host.CodesTell requests) :
    host.ServesOwn requests := by
  intro history hcalls done call st st' hpre hrun hstep
  have hmem (c : TuningCall) (hc : c ∈ done ++ [call]) : c.request ∈ requests :=
    hcalls c (hpre.subset hc)
  refine servedOwn_of_faithful ?_ hhash hcodes (hmem call (by simp))
  clear hpre hstep hcalls
  induction hrun with
  | start => exact start_faithful host requests
  | @next done t a u _ hnext ih =>
    rw [hnext]
    refine tune_faithful (ih fun c hc => hmem c ?_) (hmem a (by simp))
    rcases List.mem_append.mp hc with hbefore | hlast
    · simp [hbefore]
    · simp [List.mem_singleton.mp hlast]

/-- Benchmarks that only one worker gets through. -/
def oneWorker (cfg : TuningConfig) : ℚ × ℚ := if cfg.workers = 1 then (100, 10) else (0, 0)

theorem one_mem_textConfigs (h : 1 ≤ cores) (mode : AutotuneMode) :
    ∃ cfg ∈ textConfigs cores mode, cfg.workers = 1 := by
  cases mode with
  | quick => exact ⟨⟨1, 1, 32⟩, by simp [textConfigs, h], rfl⟩
  | full => exact ⟨⟨1, 1, 16⟩, by simp [textConfigs, h], rfl⟩

theorem int_of_mem_textConfigs (h : cfg ∈ textConfigs cores mode) :
    FitsInt cfg.threads ∧ FitsInt cfg.batch := by
  cases mode with
  | quick =>
    obtain ⟨w, -, rfl⟩ := List.mem_map.mp h
    have hone : FitsInt 1 := by unfold FitsInt; decide
    have hbatch : FitsInt 32 := by unfold FitsInt; decide
    exact ⟨hone, hbatch⟩
  | full =>
    obtain ⟨w, -, hw⟩ := List.mem_flatMap.mp h
    obtain ⟨t, ht, hb⟩ := List.mem_flatMap.mp hw
    obtain ⟨b, hmem, rfl⟩ := List.mem_map.mp hb
    have ht := (List.mem_filter.mp ht).1
    have hthreads : ∀ t ∈ [(1 : Int), 2, 4], FitsInt t := by unfold FitsInt; decide
    have hbatches : ∀ b ∈ [(16 : Int), 32, 64, 128, 256], FitsInt b := by unfold FitsInt; decide
    exact ⟨hthreads t ht, hbatches b hmem⟩

/-- Such benchmarks always come to a result, and one that is read back. -/
theorem freshTuning_oneWorker (host : TuningHost) (mode : AutotuneMode) :
    ∃ best, host.freshTuning mode oneWorker = some best ∧ best.Readable := by
  obtain ⟨-, hbest, hcount⟩ := TuningSearch.foldl_eq oneWorker
    (textConfigs host.machine.logicalCores mode)
  obtain ⟨one, hone, hworkers⟩ := one_mem_textConfigs host.coresPos mode
  have hscore (cfg : TuningConfig) (hcfg : cfg.workers = 1) :
      TuningSearch.scoreOf oneWorker cfg = ((100 : ℚ) : WithBot ℚ) := by
    have hmemory : cfg.memoryMb = 100 := by
      rw [TuningConfig.memoryMb, hcfg]
      norm_num
    rw [TuningSearch.scoreOf, oneWorker, if_pos hcfg, if_neg (by norm_num), hmemory,
      scoreTextConfig, if_neg (by norm_num), if_neg (by norm_num), sub_zero, sub_zero]
  have hfloor : TuningSearch.floor < ((100 : ℚ) : WithBot ℚ) :=
    WithBot.coe_lt_coe.mpr (by norm_num)
  cases hleader : leader (TuningSearch.scoreOf oneWorker) TuningSearch.floor
      (textConfigs host.machine.logicalCores mode) with
  | none =>
    have hlow := leader_eq_none_iff.mp hleader one hone
    rw [hscore one hworkers] at hlow
    exact absurd hfloor (not_lt.mpr hlow)
  | some cfg =>
    have hleads := leader_eq_some_iff.mp hleader
    have hcfg : cfg.workers = 1 := by
      by_contra hother
      have hbot : TuningSearch.scoreOf oneWorker cfg = ⊥ := by
        rw [TuningSearch.scoreOf, oneWorker, if_neg hother, if_pos le_rfl]
      have habove := hleads.above
      rw [hbot] at habove
      exact not_lt_bot habove
    refine ⟨cfg.result (oneWorker cfg), ?_, ?_⟩
    · rw [hleader] at hbest
      rw [TextHost.freshTuning, if_neg, hbest]
      · rfl
      · intro hzero
        have hbot := hcount.mp hzero one hone
        rw [hscore one hworkers] at hbot
        exact WithBot.coe_ne_bot hbot
    · obtain ⟨hthreads, hbatch⟩ := int_of_mem_textConfigs hleads.mem
      have hmemory : (cfg.result (oneWorker cfg)).memoryMb = 100 := by
        change (cfg.workers : ℚ) * 100 = 100
        rw [hcfg]
        norm_num
      have hrate : (cfg.result (oneWorker cfg)).throughputDocsSec = 100 := by
        change (oneWorker cfg).1 = 100
        rw [oneWorker, if_pos hcfg]
      have hlatency : (cfg.result (oneWorker cfg)).latencyMs = 10 := by
        change (oneWorker cfg).2 = 10
        rw [oneWorker, if_pos hcfg]
      refine ⟨?_, hthreads, hbatch, ?_, ?_, ?_⟩
      · change FitsInt cfg.workers
        rw [hcfg]
        unfold FitsInt
        decide
      · rw [hrate]
        decide +kernel
      · rw [hlatency]
        decide +kernel
      · rw [hmemory]
        decide +kernel

theorem benchCorpus_ne_nil (request : TuningRequest) : request.benchCorpus ≠ [] := by
  unfold TuningRequest.benchCorpus
  split
  · split
    · exact List.cons_ne_nil _ _
    · exact List.cons_ne_nil _ _
  · assumption

/-- Two calls are enough to tell: one that stores and one that is served. -/
theorem codesTell_of_servesOwn (h : host.ServesOwn requests) : host.CodesTell requests := by
  intro r hr r' hr' info info' hinfo hinfo' hcode hcorpus hmode
  obtain ⟨best, hbest, hreadable⟩ := freshTuning_oneWorker host r.mode
  have hidentity : r'.identity info' = r.identity info := by
    rw [TuningRequest.identity, TuningRequest.identity, TuningRequest.benchCorpus,
      TuningRequest.benchCorpus, hcode, hcorpus, hmode]
  let store : TuningCall := ⟨r, oneWorker, .stored⟩
  let ask : TuningCall := ⟨r', oneWorker, .stored⟩
  have hfresh : host.fresh TuningState.start.files store = some (r.identity info, best) := by
    have hentry : host.registry[store.request.model]? = some info := hinfo
    have hmiss : (host.storedTuning TuningState.start.files (r.identity info)).isSome = false := rfl
    have hresult : host.freshTuning store.request.mode store.benchmark = some best := hbest
    simp [fresh, hentry, hresult, hmiss, benchCorpus_ne_nil, store]
  have hall : ∀ call ∈ [store, ask], call.request ∈ requests := by
    simp [store, ask, hr, hr']
  have hserved := h [store, ask] hall [store] ask (host.tune .start store)
    (host.tune (host.tune .start store) ask) (List.prefix_refl _)
    (Run.next .start rfl : Run host.Tunes TuningState.start ([] ++ [store]) _) rfl info' hinfo'
  have hread : (host.tune .start store).files.read (host.path (r.identity info)) =
      some (textCacheDocument (r.identity info) best) := by
    rw [files_tune, hfresh]
    exact AutotuneFiles.read_write_self _ _ _ .stored
  have howner : (host.tune .start store).storedFor (host.path (r.identity info)) = some r := by
    unfold tune
    dsimp only
    rw [hfresh]
    exact Function.update_self ..
  have hfound : (host.storedTuning (host.tune .start store).files (r.identity info)).isSome =
      true := by
    have hread' : (host.tune .start store).files.read
        (textCachePath host.machine host.autotuneDir (r.identity info)) =
          some (textCacheDocument (r.identity info) best) := hread
    rw [TextHost.storedTuning, hread', Option.bind_some]
    exact readTextCache_own (legible_identity r info) hreadable
  have hrequest : ask.request.identity info' = r.identity info := hidentity
  rw [hrequest, howner] at hserved
  exact congrArg TuningRequest.model (Option.some.inj (hserved hfound))

/-- Where the hash tells corpora apart, requests are served their own results exactly when codes
tell entries apart. -/
theorem servesOwn_iff (host : TuningHost) (requests : Set TuningRequest)
    (hhash : HashTells requests) : host.ServesOwn requests ↔ host.CodesTell requests :=
  ⟨codesTell_of_servesOwn, servesOwn_of_codesTell hhash⟩

-- ---------------------------------------------------------------------------
-- Two entries of one repository
-- ---------------------------------------------------------------------------

def siblings : TuningHost := { TextHost.siblings with coresPos := by decide }

/-- A custom corpus, tuned for one of the two entries. -/
def siblingRequest (model : Nat) : TuningRequest := ⟨model, [ascii "text"], by decide, .quick⟩

def siblingRequests : Set TuningRequest := {r | ∃ model, r = siblingRequest model}

theorem siblings_hashTells : HashTells siblingRequests := by
  rintro r ⟨model, rfl⟩ r' ⟨model', rfl⟩ _
  rfl

theorem servesOwn_iff_siblings : HashTells siblingRequests ∧
    (siblings.ServesOwn siblingRequests ↔ siblings.CodesTell siblingRequests) :=
  ⟨siblings_hashTells, servesOwn_iff siblings siblingRequests siblings_hashTells⟩

/-- The quantized entry is served what was measured for the other one. -/
theorem siblings_not_servesOwn :
    HashTells siblingRequests ∧ ¬siblings.ServesOwn siblingRequests := by
  refine ⟨siblings_hashTells, fun h => ?_⟩
  let store : TuningCall := ⟨siblingRequest 0, oneWorker, .stored⟩
  let ask : TuningCall := ⟨siblingRequest 1, oneWorker, .stored⟩
  have hserved := h [store, ask] (by simp [store, ask, siblingRequests]) [store] ask
    (siblings.tune .start store) (siblings.tune (siblings.tune .start store) ask)
    (List.prefix_refl _)
    (Run.next .start rfl : Run siblings.Tunes TuningState.start ([] ++ [store]) _) rfl
    (TextHost.siblings.registry.get ⟨1, by decide⟩) rfl (by decide +kernel)
  have hmodel := congrArg (Option.map TuningRequest.model) hserved
  revert hmodel
  decide +kernel

end TuningHost

end LibEmbedding
