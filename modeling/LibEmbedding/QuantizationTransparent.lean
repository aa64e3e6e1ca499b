import LibEmbedding.QuantizationStored

/-!
# Stored decisions are the decisions that would be made

A decision is stored under a model's code, and entries may share one. When every measurement is
the entry's own, stored decisions are the ones that would be made again exactly when the entries
that share a code agree on them.
-/

namespace LibEmbedding

open Foundation

-- ---------------------------------------------------------------------------
-- The decision rule
-- ---------------------------------------------------------------------------

theorem rateOf_some (h : rateOf q measured = some rate) :
    ∃ row ∈ measured, row.quantization = q ∧ 0 < row.docsPerSec := by
  revert h
  unfold rateOf
  refine List.foldlRecOn (motive := fun found => found = some rate →
    ∃ row ∈ measured, row.quantization = q ∧ 0 < row.docsPerSec) measured _ ?_ ?_
  · exact nofun
  · intro found hfound row hrow hrate
    split at hrate
    · exact hfound hrate
    · rename_i hpos
      split at hrate
      · rename_i hq
        exact ⟨row, hrow, hq, not_le.mp hpos⟩
      · exact hfound hrate

theorem fastest_mem (baseline : ℚ) (measured : List QuantizationMeasurement) :
    (fastest baseline measured).1 = Quantization.none.code ∨
      ∃ row ∈ measured, row.quantization = (fastest baseline measured).1 := by
  unfold fastest
  refine List.foldlRecOn (motive := fun best : Int × ℚ => best.1 = Quantization.none.code ∨
    ∃ row ∈ measured, row.quantization = best.1) measured _ ?_ ?_
  · exact .inl rfl
  · intro best hbest row hrow
    split
    · exact hbest
    · split
      · exact .inr ⟨row, hrow, rfl⟩
      · exact hbest

/-- The rule answers with the baseline or with a mode that was measured. -/
theorem quantAutoPick_mem (measured : List QuantizationMeasurement) :
    quantAutoPick measured = Quantization.none.code ∨
      ∃ row ∈ measured, row.quantization = quantAutoPick measured := by
  unfold quantAutoPick
  split
  · exact .inl rfl
  · rename_i baseline hbaseline
    dsimp only
    split
    · exact .inl rfl
    · rename_i hbest
      have hfastest := (fastest_mem baseline measured).resolve_left hbest
      split
      · exact .inr hfastest
      · rename_i dynamic hdynamic
        split
        · obtain ⟨row, hrow, hmode, -⟩ := rateOf_some hdynamic
          exact .inr ⟨row, hrow, hmode⟩
        · exact .inr hfastest

namespace TextHost

variable (host : TextHost)

/-- Whether an entry opens and what it measures is the entry's own. -/
structure Deterministic : Prop where
  opens : ∀ call call' v,
    (host.quantAutoOpen call v).isSome = (host.quantAutoOpen call' v).isSome
  probe : ∀ v threads batch corpus threads' batch' corpus' best,
    host.probe v threads batch corpus best = host.probe v threads' batch' corpus' best
  measure : ∀ v threads batch corpus threads' batch' corpus',
    host.measure v threads batch corpus = host.measure v threads' batch' corpus'

/-- The call that leaves everything to the library. -/
def plainCall (model : Nat) : SelectCall where
  model
  numThreads := 0
  batchSize := 0
  numDocs := 0
  dryRun := false
  saving := .stored

/-- The table of an entry. -/
def rows (model : Nat) (info : TextModelInfo) : List QuantizationMeasurement :=
  host.measuredRows (plainCall model) info

/-- The mode that the table of an entry is decided for. -/
def winner (model : Nat) (info : TextModelInfo) : Int := winnerOf info (host.rows model info)

/-- Something was measured, and its numbers are read back. -/
def Recorded (model : Nat) (info : TextModelInfo) : Prop :=
  host.rows model info ≠ [] ∧ ∀ row ∈ host.rows model info, QuantizationLoad.Readable row

/-- The FP32 entry of the family is measured. -/
def BaselineMeasured (modelName : Bytes) : Prop :=
  ∃ b, findTextModelVariant host.registry modelName Quantization.none.code = some b ∧
    (host.measureVariant (plainCall b) b).isSome = true

variable {host}

-- ---------------------------------------------------------------------------
-- Tables
-- ---------------------------------------------------------------------------

/-- A variant opens in all calls or in none. -/
theorem Deterministic.opens_cases (h : host.Deterministic) (call call' : SelectCall) (v : Nat) :
    (host.quantAutoOpen call v = none ∧ host.quantAutoOpen call' v = none) ∨
      ∃ ctx ctx', host.quantAutoOpen call v = some ctx ∧ host.quantAutoOpen call' v = some ctx' := by
  have hopens := h.opens call call' v
  cases hleft : host.quantAutoOpen call v with
  | none =>
    rw [hleft] at hopens
    exact .inl ⟨rfl, Option.isNone_iff_eq_none.mp (Option.isSome_eq_false_iff.mp hopens.symm)⟩
  | some ctx =>
    rw [hleft] at hopens
    obtain ⟨ctx', hright⟩ := Option.isSome_iff_exists.mp hopens.symm
    exact .inr ⟨ctx, ctx', rfl, hright⟩

theorem Deterministic.measureVariant_eq (h : host.Deterministic) (call call' : SelectCall) (v : Nat) :
    host.measureVariant call v = host.measureVariant call' v := by
  unfold measureVariant
  rw [h.measure v call.numThreads call.batch call.corpus call'.numThreads call'.batch call'.corpus]
  rcases h.opens_cases call call' v with ⟨hleft, hright⟩ | ⟨ctx, ctx', hleft, hright⟩
  · rw [hleft, hright]
  · rw [hleft, hright]
    rfl

theorem Deterministic.probeVariants_eq (h : host.Deterministic) (call call' : SelectCall)
    (variants : List Nat) : host.probeVariants call variants = host.probeVariants call' variants := by
  unfold probeVariants
  congr 2
  funext ⟨best, survivors⟩ v
  dsimp only
  rw [h.probe v call.numThreads call.batch call.corpus call'.numThreads call'.batch call'.corpus
    best]
  rcases h.opens_cases call call' v with ⟨hleft, hright⟩ | ⟨ctx, ctx', hleft, hright⟩
  · rw [hleft, hright]
  · rw [hleft, hright]

/-- A call's table is its entry's. -/
theorem Deterministic.measuredRows_eq (h : host.Deterministic) (call : SelectCall)
    (info : TextModelInfo) : host.measuredRows call info = host.rows call.model info := by
  have hmeasure : host.measureVariant call = host.measureVariant (plainCall call.model) :=
    funext fun v => h.measureVariant_eq call (plainCall call.model) v
  have hprobe : host.probeVariants call = host.probeVariants (plainCall call.model) :=
    funext fun variants => h.probeVariants_eq call (plainCall call.model) variants
  rw [rows, measuredRows, measuredRows, hmeasure, hprobe]
  rfl

theorem length_rows (model : Nat) (info : TextModelInfo) :
    (host.rows model info).length ≤ quantMaxVariants := by
  unfold rows measuredRows
  split
  · exact Nat.zero_le _
  · exact List.length_take_le _ _

theorem measureVariant_some {row : QuantizationMeasurement}
    (h : host.measureVariant call v = some row) :
    ∃ info, host.registry[v]? = some info ∧ row.quantization = info.quantization.code ∧
      0 < row.docsPerSec ∧ (host.quantAutoOpen call v).isSome = true := by
  simp only [measureVariant, Option.bind_eq_bind, Option.bind_eq_some_iff] at h
  obtain ⟨info, hinfo, ctx, hopen, hrow⟩ := h
  split at hrow
  · cases hrow
  · rename_i hpos
    cases hrow
    exact ⟨info, hinfo, rfl, not_le.mp hpos, by rw [hopen]; rfl⟩

theorem mem_probeVariants (h : v ∈ host.probeVariants call variants) : v ∈ variants := by
  revert h
  unfold probeVariants
  refine List.foldlRecOn (motive := fun st : ℚ × List Nat => v ∈ st.2 → v ∈ variants) variants _
    ?_ ?_
  · exact fun h => absurd h List.not_mem_nil
  · rintro ⟨best, survivors⟩ hsurvivors w hw
    dsimp only
    split
    · exact hsurvivors
    · split
      · exact hsurvivors
      · intro hv
        rcases List.mem_append.mp hv with hbefore | hlast
        · exact hsurvivors hbefore
        · exact List.mem_singleton.mp hlast ▸ hw

/-- A row is that of the first entry of the family with its mode, or of the entry that was asked
for in a family without FP32 weights. -/
theorem mem_collectVariants (hinfo : host.registry[model]? = some info)
    (hv : v ∈ host.collectVariants model info) (hvariant : host.registry[v]? = some variant) :
    findTextModelVariant host.registry info.modelName variant.quantization.code = some v ∨
      v = model ∧ info.quantization ≠ .none := by
  rcases List.mem_cons.mp hv with rfl | hother
  · dsimp only at hvariant ⊢
    cases hnone : findTextModelVariant host.registry info.modelName Quantization.none.code with
    | none =>
      refine .inr ⟨rfl, fun hmode => ?_⟩
      have hself := findTextModelVariant_isSome hinfo
      rw [hmode, hnone] at hself
      cases hself
    | some b =>
      obtain ⟨found, hfound, -, hmode⟩ := findTextModelVariant_some hnone
      rw [hnone, Option.getD_some] at hvariant
      obtain rfl := Option.some.inj (hfound.symm.trans hvariant)
      rw [hmode]
      exact .inl (by simp [hnone])
  · obtain ⟨q, -, hq⟩ := List.mem_filterMap.mp (List.mem_filter.mp hother).1
    obtain ⟨found, hfound, -, hmode⟩ := findTextModelVariant_some hq
    obtain rfl := Option.some.inj (hfound.symm.trans hvariant)
    rw [hmode]
    exact .inl hq

theorem mem_rows {row : QuantizationMeasurement} (h : row ∈ host.rows model info) :
    ∃ v ∈ host.collectVariants model info,
      host.measureVariant (plainCall model) v = some row := by
  unfold rows measuredRows at h
  split at h
  · cases h
  · rename_i baseline others hvariants
    obtain ⟨v, hv, hrow⟩ := List.mem_filterMap.mp (List.mem_of_mem_take h)
    refine ⟨v, ?_, hrow⟩
    have hmem : v ∈ host.collectVariants (plainCall model).model info := by
      rw [hvariants]
      rcases List.mem_cons.mp hv with rfl | hother
      · exact List.mem_cons_self
      · exact List.mem_cons_of_mem _ (mem_probeVariants hother)
    exact hmem

-- ---------------------------------------------------------------------------
-- Decisions
-- ---------------------------------------------------------------------------

/-- The weights an offline creator finds. -/
def OnDisk (host : TextHost) (v : Nat) : Prop := ∃ dir, host.ensureTextModel v [] true = .ok dir

theorem onDisk_of_open (h : (host.quantAutoOpen call v).isSome = true) : OnDisk host v := by
  unfold quantAutoOpen at h
  cases hcreate : host.create
    { model := v, numThreads := call.numThreads, batchSize := call.batch, offline := true } with
  | error status =>
    rw [hcreate] at h
    cases h
  | ok ctx =>
    obtain ⟨info, hloaded⟩ := create_ok hcreate
    obtain ⟨dir, hdir, -⟩ := hloaded.weights
    exact ⟨dir, hdir⟩

/-- The mode of a row names an entry, and one whose weights are there. -/
theorem variantFor_row {row : QuantizationMeasurement} (hinfo : host.registry[model]? = some info)
    (hrow : row ∈ host.rows model info) :
    ∃ v, host.variantFor model info row.quantization = some v ∧ (v = model ∨ OnDisk host v) := by
  obtain ⟨v, hv, hmeasure⟩ := mem_rows hrow
  obtain ⟨variant, hvariant, hmode, -, hopen⟩ := measureVariant_some hmeasure
  unfold variantFor
  split
  · exact ⟨model, rfl, .inl rfl⟩
  · rename_i hother
    rcases mem_collectVariants hinfo hv hvariant with hfirst | ⟨rfl, -⟩
    · exact ⟨v, hmode ▸ hfirst, .inr (onDisk_of_open hopen)⟩
    · obtain rfl := Option.some.inj (hinfo.symm.trans hvariant)
      exact absurd hmode hother

theorem winner_cases (host : TextHost) (model : Nat) (info : TextModelInfo) :
    host.winner model info = info.quantization.code ∨
      ∃ row ∈ host.rows model info, row.quantization = host.winner model info := by
  unfold winner winnerOf
  split
  · rename_i hbaseline
    rcases quantAutoPick_mem (host.rows model info) with hnone | hrow
    · obtain ⟨row, hrow, hmode⟩ := List.any_eq_true.mp hbaseline
      rw [Bool.and_eq_true, decide_eq_true_eq] at hmode
      exact .inr ⟨row, hrow, hmode.1.trans hnone.symm⟩
    · exact .inr hrow
  · exact .inl rfl

theorem variantFor_winner (hinfo : host.registry[model]? = some info) :
    ∃ v, host.variantFor model info (host.winner model info) = some v ∧
      (v = model ∨ OnDisk host v) := by
  rcases winner_cases host model info with hown | ⟨row, hrow, hmode⟩
  · exact ⟨model, by rw [variantFor, if_pos hown], .inl rfl⟩
  · exact hmode ▸ variantFor_row hinfo hrow

/-- A decision is the entry's winner and the entry that the winner stands for. -/
theorem freshChoice_eq (hdet : host.Deterministic) (call : SelectCall)
    (hinfo : host.registry[call.model]? = some info) :
    (host.freshChoice call info).quantization = host.winner call.model info ∧
      host.variantFor call.model info (host.winner call.model info) =
        some (host.freshChoice call info).variantModel.toNat ∧
      0 ≤ (host.freshChoice call info).variantModel := by
  obtain ⟨v, hv, -⟩ := variantFor_winner hinfo
  unfold freshChoice
  rw [hdet.measuredRows_eq]
  dsimp only
  split
  · rename_i hrows
    have hown : host.winner call.model info = info.quantization.code := by
      unfold winner winnerOf
      rw [hrows]
      rfl
    refine ⟨hown.symm, ?_, Int.natCast_nonneg _⟩
    rw [variantFor, if_pos hown, Int.toNat_natCast]
  · have hwinner : host.variantFor call.model info
        (winnerOf info (host.rows call.model info)) = some v := hv
    rw [hwinner]
    exact ⟨rfl, hv, Int.natCast_nonneg _⟩

theorem freshChoice_measured (hdet : host.Deterministic) (call : SelectCall)
    (info : TextModelInfo) :
    (host.freshChoice call info).measured = host.rows call.model info := by
  unfold freshChoice
  rw [hdet.measuredRows_eq]
  dsimp only
  split
  · rename_i hrows
    exact hrows.symm
  · rfl

theorem freshChoice_call (hdet : host.Deterministic) (call : SelectCall) (info : TextModelInfo) :
    host.freshChoice call info = host.freshChoice (plainCall call.model) info := by
  unfold freshChoice
  rw [hdet.measuredRows_eq, hdet.measuredRows_eq]
  rfl

theorem freshChoice_range {call : SelectCall} (hinfo : host.registry[call.model]? = some info) :
    0 ≤ (host.freshChoice call info).quantization ∧
      (host.freshChoice call info).quantization ≤ intMax := by
  obtain ⟨v, -, variant, -, -, hmode⟩ := freshChoice_paired hinfo
  rw [← hmode]
  exact ⟨variant.quantization.code_range.1, variant.quantization.code_range.2.trans (by decide)⟩

theorem legible_identity (info : TextModelInfo) : (quantAutoIdentity info.modelCode).Legible where
  model := info.plainCode
  variant := (by decide : Plain (ascii "quantization"))
  corpus := (by decide : Plain [])
  objective := Nat.one_lt_two_pow (by decide)
  mode := Nat.one_lt_two_pow (by decide)

/-- What a reader finds in the entry that a call stored. -/
theorem load_stored (hdet : host.Deterministic) (call : SelectCall)
    (hinfo : host.registry[call.model]? = some info) (want : CacheIdentity) :
    (quantAutoLoad (quantAutoDocument (quantAutoIdentity info.modelCode)
      (host.freshChoice call info)) want).map (·.quantization) =
      if quantAutoIdentity info.modelCode = want ∧ host.rows call.model info ≠ [] ∧
          ∀ row ∈ host.rows call.model info, QuantizationLoad.Readable row then
        some (host.winner call.model info)
      else none := by
  obtain ⟨hlow, hhigh⟩ := freshChoice_range hinfo
  have hmeasured := freshChoice_measured hdet call info
  have hload := QuantizationLoad.load_document want (legible_identity info)
    (host.freshChoice call info) hlow hhigh (hmeasured ▸ length_rows call.model info)
  rw [hmeasured, (freshChoice_eq hdet call hinfo).1] at hload
  exact hload

-- ---------------------------------------------------------------------------
-- Histories
-- ---------------------------------------------------------------------------

/-- What callers are told: a mode and an entry. -/
def answer (reply : Except Status QuantizationChoice) : Except Status (Int × Int) :=
  reply.map fun choice => (choice.quantization, choice.variantModel)

@[simp] theorem answer_ok (choice : QuantizationChoice) :
    answer (.ok choice) = .ok (choice.quantization, choice.variantModel) := rfl

variable (host) in
/-- The files after a history of calls, from no files at all. -/
def run (history : List SelectCall) : AutotuneFiles :=
  history.foldl (fun files call => (host.select files call).2) []

variable (host) in
/-- A call is answered as it would be with no files, and an entry it names in the place of the
one that was asked for has its weights on disk. -/
def Transparent : Prop :=
  ∀ history call, (∀ c ∈ history ++ [call], SelectCall.dryRun c = false) →
    answer (host.select (host.run history) call).1 = answer (host.select [] call).1 ∧
    ∀ choice, (host.select (host.run history) call).1 = .ok choice →
      choice.variantModel = call.model ∨ OnDisk host choice.variantModel.toNat

variable (host) in
/-- The entries that share a code agree on the mode, where the one's decision can be read by
the other. -/
def Agree : Prop :=
  ∀ m m' info info', host.registry[m]? = some info → host.registry[m']? = some info' →
    info.modelCode = info'.modelCode → host.Recorded m' info' →
    (host.variantFor m info (host.winner m' info')).isSome = true →
    host.winner m' info' = host.winner m info

variable (host) in
/-- Every file is an entry that a call stored for some entry of the registry. -/
def Faithful (files : AutotuneFiles) : Prop :=
  ∀ path content, files.read path = some content →
    ∃ m info, host.registry[m]? = some info ∧
      content = quantAutoDocument (quantAutoIdentity info.modelCode)
        (host.freshChoice (plainCall m) info)

theorem select_faithful (hdet : host.Deterministic) (hfiles : Faithful host files)
    (call : SelectCall) : Faithful host (host.select files call).2 := by
  unfold select
  split
  · exact hfiles
  · rename_i info hinfo
    split
    · exact hfiles
    · dsimp only
      split
      · exact hfiles
      · intro path content hread
        rcases AutotuneFiles.read_write_cases _ _ _ _ _ hread with hold | ⟨-, rfl⟩
        · exact hfiles path content hold
        · exact ⟨call.model, info, hinfo, by rw [freshChoice_call hdet]⟩

theorem run_faithful (hdet : host.Deterministic) (history : List SelectCall) :
    Faithful host (host.run history) := by
  induction history using List.reverseRecOn with
  | nil => exact nofun
  | append_singleton history call ih =>
    rw [run, List.foldl_append]
    exact select_faithful hdet ih call

theorem select_miss {call : SelectCall} (hinfo : host.registry[call.model]? = some info)
    (h : host.cachedChoice files call.model info = none) :
    (host.select files call).1 = .ok (host.freshChoice call info) := by
  unfold select
  rw [hinfo]
  dsimp only
  rw [h]

theorem select_hit {call : SelectCall} (hinfo : host.registry[call.model]? = some info)
    (h : host.cachedChoice files call.model info = some choice) :
    (host.select files call).1 = .ok choice := by
  unfold select
  rw [hinfo]
  dsimp only
  rw [h]

/-- With no files a call is answered with its entry's decision. -/
theorem answer_fresh (hdet : host.Deterministic) (call : SelectCall)
    (hinfo : host.registry[call.model]? = some info)
    (hv : host.variantFor call.model info (host.winner call.model info) = some v) :
    answer (.ok (host.freshChoice call info)) = .ok (host.winner call.model info, (v : Int)) := by
  obtain ⟨hmode, hvariant, hlow⟩ := freshChoice_eq hdet call hinfo
  have hentry : (host.freshChoice call info).variantModel = (v : Int) := by
    rw [← Option.some.inj (hvariant.symm.trans hv), Int.toNat_of_nonneg hlow]
  rw [answer_ok, hmode, hentry]

/-- A hit tells the winner of an entry with the same code, and where that stands for an entry
of the family. -/
theorem cachedChoice_faithful (hdet : host.Deterministic) (hfiles : Faithful host files)
    (h : host.cachedChoice files model info = some choice) :
    ∃ m' info' v, host.registry[m']? = some info' ∧ info.modelCode = info'.modelCode ∧
      host.Recorded m' info' ∧ host.variantFor model info (host.winner m' info') = some v ∧
      choice.quantization = host.winner m' info' ∧ choice.variantModel = v := by
  obtain ⟨content, stored, v, hread, hload, hvariant, rfl⟩ := cachedChoice_eq h
  obtain ⟨m', info', hinfo', rfl⟩ := hfiles _ content hread
  have hstored := load_stored hdet (plainCall m') hinfo' (quantAutoIdentity info.modelCode)
  rw [hload] at hstored
  split at hstored
  · rename_i hrecorded
    obtain ⟨howner, hrecorded⟩ := hrecorded
    have hmode : stored.quantization = host.winner m' info' := Option.some.inj hstored
    exact ⟨m', info', v, hinfo', (congrArg CacheIdentity.model howner).symm, hrecorded,
      hmode ▸ hvariant, hmode, rfl⟩
  · cases hstored

theorem transparent_of_agree (hdet : host.Deterministic) (hagree : Agree host) :
    Transparent host := by
  intro history call _
  have hfiles := run_faithful hdet history
  cases hinfo : host.registry[call.model]? with
  | none =>
    have hmissing (files : AutotuneFiles) :
        (host.select files call).1 = .error .modelNotFound := by
      unfold select
      rw [hinfo]
    rw [hmissing, hmissing]
    exact ⟨rfl, nofun⟩
  | some info =>
    obtain ⟨v, hv, hdisk⟩ := variantFor_winner hinfo
    have hempty : (host.select [] call).1 = .ok (host.freshChoice call info) :=
      select_miss hinfo rfl
    have hfresh := answer_fresh hdet call hinfo hv
    cases hcached : host.cachedChoice (host.run history) call.model info with
    | none =>
      rw [hempty, select_miss hinfo hcached]
      refine ⟨rfl, ?_⟩
      rintro choice hchoice
      cases hchoice
      obtain ⟨-, hvariant, hlow⟩ := freshChoice_eq hdet call hinfo
      rw [← Option.some.inj (hv.symm.trans hvariant)]
      rcases hdisk with rfl | hdisk
      · refine .inl ?_
        rw [Option.some.inj (hv.symm.trans hvariant), Int.toNat_of_nonneg hlow]
      · exact .inr hdisk
    | some choice =>
      obtain ⟨m', info', w, hinfo', hcode, hrecorded, hw, hmode, hentry⟩ :=
        cachedChoice_faithful hdet hfiles hcached
      have hwinner := hagree call.model m' info info' hinfo hinfo' hcode hrecorded
        (by rw [hw]; rfl)
      rw [hwinner] at hw hmode
      obtain rfl := Option.some.inj (hv.symm.trans hw)
      rw [hempty, select_hit hinfo hcached, hfresh]
      refine ⟨?_, ?_⟩
      · rw [answer_ok, hmode, hentry]
      · rintro _ hchoice
        cases hchoice
        rw [hentry, Int.toNat_natCast]
        rcases hdisk with rfl | hdisk
        · exact .inl rfl
        · exact .inr hdisk

/-- Two calls are enough to tell: one that stores and one that reads. -/
theorem agree_of_transparent (hdet : host.Deterministic) (h : Transparent host) :
    Agree host := by
  intro m m' info info' hinfo hinfo' hcode hrecorded hserved
  obtain ⟨w, hw⟩ := Option.isSome_iff_exists.mp hserved
  obtain ⟨v, hv, -⟩ := variantFor_winner hinfo
  have hanswer := (h [plainCall m'] (plainCall m) (by simp [plainCall])).1
  have hempty : (host.select [] (plainCall m)).1 = .ok (host.freshChoice (plainCall m) info) :=
    select_miss hinfo rfl
  have hmeasured : (host.freshChoice (plainCall m') info').measured ≠ [] := by
    rw [freshChoice_measured hdet]
    exact hrecorded.1
  have hstored : host.run [plainCall m'] = AutotuneFiles.write []
      (quantAutoPath host.machine host.autotuneDir (quantAutoIdentity info'.modelCode))
      (quantAutoDocument (quantAutoIdentity info'.modelCode)
        (host.freshChoice (plainCall m') info')) .stored := by
    have hmiss : host.cachedChoice ([] : AutotuneFiles) (plainCall m').model info' = none := rfl
    change (host.select [] (plainCall m')).2 = _
    have hentry : host.registry[(plainCall m').model]? = some info' := hinfo'
    unfold select
    rw [hentry]
    dsimp only
    rw [hmiss]
    dsimp only
    rw [if_neg (by simpa [plainCall] using hmeasured)]
    rfl
  obtain ⟨stored, hload, hmode⟩ : ∃ stored,
      quantAutoLoad (quantAutoDocument (quantAutoIdentity info'.modelCode)
        (host.freshChoice (plainCall m') info')) (quantAutoIdentity info.modelCode) =
        some stored ∧ stored.quantization = host.winner m' info' := by
    have hload := load_stored hdet (plainCall m') hinfo' (quantAutoIdentity info.modelCode)
    rw [if_pos ⟨by rw [hcode], hrecorded⟩] at hload
    exact Option.map_eq_some_iff.mp hload
  have hcached : host.cachedChoice (host.run [plainCall m']) m info =
      some { stored with variantModel := w } := by
    have hread := AutotuneFiles.read_write_self []
      (quantAutoPath host.machine host.autotuneDir (quantAutoIdentity info'.modelCode))
      (quantAutoDocument (quantAutoIdentity info'.modelCode)
        (host.freshChoice (plainCall m') info')) .stored
    rw [hcode] at hload
    unfold cachedChoice
    dsimp only
    rw [hstored, hcode, hread]
    simp only [Option.bind_eq_bind, Option.bind_some]
    rw [hload, Option.bind_some, hmode, hw]
    rfl
  have hserve := @select_hit _ _ _ _ (plainCall m) hinfo hcached
  rw [hempty, hserve, answer_fresh hdet (plainCall m) hinfo hv] at hanswer
  have hpair := Except.ok.inj hanswer
  exact hmode.symm.trans (congrArg Prod.fst hpair)

-- ---------------------------------------------------------------------------
-- Entries that share a code
-- ---------------------------------------------------------------------------

theorem collectVariants_of_baseline (model : Nat)
    (h : findTextModelVariant host.registry info.modelName Quantization.none.code = some b) :
    host.collectVariants model info = b :: (quantOrder.filterMap fun q =>
      findTextModelVariant host.registry info.modelName q.code).filter (· ≠ b) := by
  simp only [collectVariants, h, Option.getD_some]

theorem baseline_row (hdet : host.Deterministic) (hinfo : host.registry[model]? = some info) :
    ((host.rows model info).any fun row =>
      row.quantization = Quantization.none.code && 0 < row.docsPerSec) = true ↔
        host.BaselineMeasured info.modelName := by
  rw [List.any_eq_true]
  constructor
  · rintro ⟨row, hrow, hbaseline⟩
    rw [Bool.and_eq_true, decide_eq_true_eq] at hbaseline
    obtain ⟨v, hv, hmeasure⟩ := mem_rows hrow
    obtain ⟨variant, hvariant, hmode, -, -⟩ := measureVariant_some hmeasure
    have hnone : variant.quantization.code = Quantization.none.code := hmode ▸ hbaseline.1
    rcases mem_collectVariants hinfo hv hvariant with hfirst | ⟨rfl, hother⟩
    · refine ⟨v, hnone ▸ hfirst, ?_⟩
      rw [hdet.measureVariant_eq _ (plainCall model), hmeasure]
      rfl
    · obtain rfl := Option.some.inj (hinfo.symm.trans hvariant)
      exact absurd (Quantization.code_injective hnone) hother
  · rintro ⟨b, hfirst, hmeasure⟩
    rw [hdet.measureVariant_eq _ (plainCall model)] at hmeasure
    obtain ⟨row, hrow⟩ := Option.isSome_iff_exists.mp hmeasure
    obtain ⟨variant, hvariant, hmode, hpos, -⟩ := measureVariant_some hrow
    obtain ⟨found, hfound, -, hnone⟩ := findTextModelVariant_some hfirst
    obtain rfl := Option.some.inj (hvariant.symm.trans hfound)
    refine ⟨row, ?_, by simp [hmode, hnone, hpos]⟩
    unfold rows measuredRows
    rw [collectVariants_of_baseline (plainCall model).model hfirst]
    dsimp only
    rw [List.filterMap_cons, hrow]
    exact List.mem_cons_self

theorem winner_of_noBaseline (hdet : host.Deterministic) (hinfo : host.registry[model]? = some info)
    (h : ¬host.BaselineMeasured info.modelName) :
    host.winner model info = info.quantization.code := by
  unfold winner winnerOf
  rw [if_neg fun hrow => h ((baseline_row hdet hinfo).mp hrow)]

/-- Where the FP32 weights of a family are measured, all its entries have one table. -/
theorem winner_of_baseline (hdet : host.Deterministic) (hinfo : host.registry[m]? = some info)
    (hname : info.modelName = info'.modelName) (h : host.BaselineMeasured info.modelName) :
    host.winner m' info' = host.winner m info := by
  obtain ⟨b, hfirst, -⟩ := id h
  have hfirst' : findTextModelVariant host.registry info'.modelName Quantization.none.code =
      some b := hname ▸ hfirst
  have hvariants : host.collectVariants m' info' = host.collectVariants m info := by
    rw [collectVariants_of_baseline m hfirst, collectVariants_of_baseline m' hfirst', hname]
  have hmeasure : host.measureVariant (plainCall m') = host.measureVariant (plainCall m) :=
    funext fun v => hdet.measureVariant_eq _ _ v
  have hprobe : host.probeVariants (plainCall m') = host.probeVariants (plainCall m) :=
    funext fun variants => hdet.probeVariants_eq _ _ variants
  have hrows : host.rows m' info' = host.rows m info := by
    unfold rows measuredRows
    rw [hmeasure, hprobe, show host.collectVariants (plainCall m').model info' =
      host.collectVariants (plainCall m).model info from hvariants]
  have hwinner := (baseline_row hdet hinfo).mpr h
  unfold winner winnerOf
  rw [hrows, if_pos hwinner, if_pos hwinner]

variable (host) in
/-- What entries may share a code. Within a family, entries of one mode, or any of them where
the FP32 weights are measured. Across families, entries whose tables are decided for one mode,
or for a mode that the other's family does not have. -/
def Separated : Prop :=
  ∀ m m' info info', host.registry[m]? = some info → host.registry[m']? = some info' →
    info.modelCode = info'.modelCode → host.Recorded m' info' →
    if info.modelName = info'.modelName then
      info.quantization = info'.quantization ∨ host.BaselineMeasured info.modelName
    else
      host.variantFor m info (host.winner m' info') = none ∨
        host.winner m' info' = host.winner m info

theorem separated_iff_agree (hdet : host.Deterministic) : Separated host ↔ Agree host := by
  constructor
  · intro h m m' info info' hinfo hinfo' hcode hrecorded hserved
    have hpair := h m m' info info' hinfo hinfo' hcode hrecorded
    split at hpair
    · rename_i hname
      by_cases hbaseline : host.BaselineMeasured info.modelName
      · exact winner_of_baseline hdet hinfo hname hbaseline
      · rw [winner_of_noBaseline hdet hinfo hbaseline,
          winner_of_noBaseline hdet hinfo' (hname ▸ hbaseline),
          hpair.resolve_right hbaseline]
    · refine hpair.resolve_left fun hnone => ?_
      rw [hnone] at hserved
      cases hserved
  · intro h m m' info info' hinfo hinfo' hcode hrecorded
    have hagree := h m m' info info' hinfo hinfo' hcode hrecorded
    split
    · rename_i hname
      rw [or_iff_not_imp_right]
      intro hbaseline
      have hwinner := winner_of_noBaseline hdet hinfo hbaseline
      have hwinner' := winner_of_noBaseline hdet hinfo' (hname ▸ hbaseline)
      rw [hwinner, hwinner'] at hagree
      refine (Quantization.code_injective (hagree ?_)).symm
      -- The other entry itself is in the family, so its mode is found.
      unfold variantFor
      split
      · rfl
      · exact hname ▸ findTextModelVariant_isSome hinfo'
    · rw [or_iff_not_imp_left]
      exact fun hserved => hagree (Option.isSome_iff_ne_none.mpr hserved)

/-- A history of calls goes unnoticed exactly when entries share a code as they may. -/
theorem transparent_iff_separated (host : TextHost) (hdet : host.Deterministic) :
    Transparent host ↔ Separated host := by
  rw [separated_iff_agree hdet]
  exact ⟨agree_of_transparent hdet, transparent_of_agree hdet⟩

-- ---------------------------------------------------------------------------
-- A family with one code
-- ---------------------------------------------------------------------------

theorem siblings_deterministic : siblings.Deterministic where
  opens call call' v := by
    rcases v with _ | _ | v <;> rfl
  probe _ _ _ _ _ _ _ _ := rfl
  measure _ _ _ _ _ _ _ := rfl

theorem transparent_iff_separated_siblings :
    siblings.Deterministic ∧ (Transparent siblings ↔ Separated siblings) :=
  ⟨siblings_deterministic, transparent_iff_separated siblings siblings_deterministic⟩

/-- Once the FP32 entry was asked for, the quantized one is refused its own weights: the answer
names the entry whose weights are not there. -/
theorem siblings_not_transparent : siblings.Deterministic ∧ ¬Transparent siblings := by
  refine ⟨siblings_deterministic, fun h => ?_⟩
  have hanswer := (h [plainCall 0] (plainCall 1) (by simp [plainCall])).1
  have hstored : answer (siblings.select (siblings.run [plainCall 0]) (plainCall 1)).1 =
      .ok (0, 0) := by decide +kernel
  have hfresh : answer (siblings.select [] (plainCall 1)).1 = .ok (2, 1) := by decide +kernel
  rw [hstored, hfresh] at hanswer
  cases hanswer

end TextHost

end LibEmbedding
