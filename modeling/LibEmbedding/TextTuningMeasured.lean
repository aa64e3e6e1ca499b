import LibEmbedding.TextTuningCache

/-!
# What text tuning measures

`benchmark_text_config`: contexts of the default model, whatever model is tuned, each embedding
its part of the corpus as one batch, whatever becomes of it. The search is right for the model
that was asked for exactly when its leader leads there too.
-/

namespace LibEmbedding

open Foundation

/-- A call of `lembed_text_embedding_embed` on a context. -/
structure WorkerCall where
  ctx : TextContext
  texts : List Bytes
  batchSize : Int

/-- The part of worker `i`. The last one takes the rest. -/
def workerTexts (corpus : List Bytes) (workers i : Nat) : List Bytes :=
  let per := corpus.length / workers
  let start := i * per
  (corpus.drop start).take (if i = workers - 1 then corpus.length - start else per)

/-- The calls of a round, one a worker. -/
def workerCalls (ctx : TextContext) (corpus : List Bytes) (workers : Nat)
    (batchOf : List Bytes → Int) : List WorkerCall :=
  (List.range workers).map fun i =>
    let texts := workerTexts corpus workers i
    ⟨ctx, texts, batchOf texts⟩

/-- Texts a second and milliseconds a text, of three rounds. -/
def rates (numTexts : Nat) (totalMs : ℚ) : ℚ × ℚ :=
  let totalTexts : ℚ := 3 * numTexts
  if totalTexts ≤ 0 ∨ totalMs ≤ 0 then (0, 0)
  else (totalTexts / (totalMs / 1000), totalMs / totalTexts)

/-- `LEMBED_TEXT_MODEL_DEFAULT` -/
def textModelDefault : Nat := 9

namespace TextHost

variable (host : TextHost) (rounds : List WorkerCall → Bool × ℚ)

/-- The options of a worker's context. -/
def workerOptions (model : Nat) (cfg : TuningConfig) : TextOptions where
  model
  numThreads := cfg.threads
  batchSize := cfg.batch
  offline := true

/-- `benchmark_text_config`. The machine tells of a round whether all its calls succeed and how
long three of them take; the benchmark never looks at the first. -/
def benchmarkTextConfig (corpus : List Bytes) (cfg : TuningConfig) : ℚ × ℚ :=
  if corpus = [] then (0, 0)
  else match host.create (workerOptions textModelDefault cfg) with
  | .error _ => (0, 0)
  | .ok ctx =>
    rates corpus.length
      (rounds (workerCalls ctx corpus cfg.workers.toNat fun texts => texts.length)).2

/-- What a configuration comes to on the model itself, with its own batch size. A failed call is
no measurement. -/
def measureConfig (model : Nat) (corpus : List Bytes) (cfg : TuningConfig) : ℚ × ℚ :=
  match host.create (workerOptions model cfg) with
  | .error _ => (0, 0)
  | .ok ctx =>
    let (succeeded, totalMs) :=
      rounds (workerCalls ctx corpus cfg.workers.toNat fun _ => cfg.batch)
    if succeeded = true then rates corpus.length totalMs else (0, 0)

end TextHost

namespace TuningHost

variable (host : TuningHost) (rounds : List WorkerCall → Bool × ℚ) (request : TuningRequest)

def configs : List TuningConfig := textConfigs host.machine.logicalCores request.mode

/-- The scores that the search compares. -/
def seenScore : TuningConfig → WithBot ℚ :=
  TuningSearch.scoreOf (host.benchmarkTextConfig rounds request.benchCorpus)

/-- The scores on the model that was asked for. -/
def ownScore : TuningConfig → WithBot ℚ :=
  TuningSearch.scoreOf (host.measureConfig rounds request.model request.benchCorpus)

/-- A configuration that runs on the model that was asked for, and none scores more there. -/
def Optimal (cfg : TuningConfig) : Prop :=
  cfg ∈ host.configs request ∧ host.ownScore rounds request cfg ≠ ⊥ ∧
    ∀ other ∈ host.configs request,
      host.ownScore rounds request other ≤ host.ownScore rounds request cfg

/-- What an answer is to be: an optimal configuration, or a failure where none runs. -/
def TunedFor : Except Status TuningResult → Prop
  | .ok result => host.Optimal rounds request ⟨result.workers, result.threads, result.batchSize⟩
  | .error _ => ∀ cfg ∈ host.configs request, host.ownScore rounds request cfg = ⊥

/-- The configuration that stands first by the scores of the search. Where all that ran score no
more than the floor, it is the one that the search starts with. -/
def First (cfg : TuningConfig) : Prop :=
  Leads (host.seenScore rounds request) TuningSearch.floor (host.configs request) cfg ∨
    (∀ other ∈ host.configs request, host.seenScore rounds request other ≤ TuningSearch.floor) ∧
      (∃ other ∈ host.configs request, host.seenScore rounds request other ≠ ⊥) ∧
      cfg = ⟨1, 1, 64⟩

/-- What stands first on the default model is optimal on the model that was asked for, and where
nothing runs on the one nothing runs on the other. -/
def Transfers : Prop :=
  host.registry[request.model]? = none ∨
    (∃ cfg, host.First rounds request cfg ∧ host.Optimal rounds request cfg) ∨
    ∀ cfg ∈ host.configs request,
      host.seenScore rounds request cfg = ⊥ ∧ host.ownScore rounds request cfg = ⊥

/-- Nothing is stored for the request. -/
def Misses (files : AutotuneFiles) : Prop :=
  ∀ info, host.registry[request.model]? = some info →
    host.storedTuning files (request.identity info) = none

variable {host rounds request}

theorem ownScore_of_unknown (h : host.registry[request.model]? = none) (cfg : TuningConfig) :
    host.ownScore rounds request cfg = ⊥ := by
  have hcreate : host.create (TextHost.workerOptions request.model cfg) =
      .error .invalidArgument := by
    have hentry : host.registry[(TextHost.workerOptions request.model cfg).model]? = none := h
    have hbackend : ¬((TextHost.workerOptions request.model cfg).backend < 0 ∨
        2 < (TextHost.workerOptions request.model cfg).backend) :=
      (by decide : ¬((2 : Int) < 0 ∨ (2 : Int) < 2))
    rw [TextHost.create, if_neg hbackend, hentry]
  rw [ownScore, TuningSearch.scoreOf, TextHost.measureConfig, hcreate]
  exact if_pos le_rfl

/-- What the search ends with, in terms of its scores. -/
theorem freshTuning_spec (host : TuningHost) (rounds : List WorkerCall → Bool × ℚ)
    (request : TuningRequest) :
    match host.freshTuning request.mode (host.benchmarkTextConfig rounds request.benchCorpus) with
    | none => ∀ cfg ∈ host.configs request, host.seenScore rounds request cfg = ⊥
    | some best => host.First rounds request ⟨best.workers, best.threads, best.batchSize⟩ := by
  obtain ⟨-, hbest, hcount⟩ := TuningSearch.foldl_eq
    (host.benchmarkTextConfig rounds request.benchCorpus) (host.configs request)
  unfold TextHost.freshTuning
  change match (if ((host.configs request).foldl _ {} : TuningSearch).benchmarked = 0 then none
    else some ((host.configs request).foldl _ {} : TuningSearch).best) with
    | none => _
    | some best => _
  by_cases hzero : ((host.configs request).foldl
      (TuningSearch.step (host.benchmarkTextConfig rounds request.benchCorpus)) {}).benchmarked = 0
  · rw [if_pos hzero]
    exact hcount.mp hzero
  · rw [if_neg hzero, hbest]
    cases hleader : leader
        (TuningSearch.scoreOf (host.benchmarkTextConfig rounds request.benchCorpus))
        TuningSearch.floor (host.configs request) with
    | some cfg => exact .inl (leader_eq_some_iff.mp hleader)
    | none =>
      refine .inr ⟨leader_eq_none_iff.mp hleader, ?_, rfl⟩
      by_contra hnone
      refine hzero (hcount.mpr fun cfg hcfg => ?_)
      by_contra hran
      exact hnone ⟨cfg, hcfg, hran⟩

theorem First.unique (h : host.First rounds request cfg) (h' : host.First rounds request cfg') :
    cfg = cfg' := by
  rcases h with hleads | ⟨hlow, -, rfl⟩
  · rcases h' with hleads' | ⟨hlow', -, -⟩
    · exact hleads.unique hleads'
    · exact absurd hleads.above (not_lt.mpr (hlow' cfg hleads.mem))
  · rcases h' with hleads' | ⟨-, -, rfl⟩
    · exact absurd hleads'.above (not_lt.mpr (hlow cfg' hleads'.mem))
    · rfl

theorem First.ran (h : host.First rounds request cfg) :
    ∃ other ∈ host.configs request, host.seenScore rounds request other ≠ ⊥ := by
  rcases h with hleads | ⟨-, hran, -⟩
  · exact ⟨cfg, hleads.mem, (bot_le.trans_lt hleads.above).ne'⟩
  · exact hran

/-- On a miss the tuner answers a request as it should exactly when its leader transfers. -/
theorem tunedFor_iff (host : TuningHost) (rounds : List WorkerCall → Bool × ℚ)
    (request : TuningRequest) (files : AutotuneFiles) (saving : Saving)
    (hmiss : host.Misses request files) :
    host.TunedFor rounds request (host.autotuneText files request
      (host.benchmarkTextConfig rounds request.benchCorpus) saving).1 ↔
        host.Transfers rounds request := by
  have hspec := freshTuning_spec host rounds request
  unfold TextHost.autotuneText
  cases hinfo : host.registry[request.model]? with
  | none => exact iff_of_true (fun cfg _ => ownScore_of_unknown hinfo cfg) (.inl hinfo)
  | some info =>
    dsimp only
    rw [if_neg (benchCorpus_ne_nil request), hmiss info hinfo]
    dsimp only
    rw [Transfers, hinfo, or_iff_right (Option.some_ne_none info)]
    cases hfresh : host.freshTuning request.mode
        (host.benchmarkTextConfig rounds request.benchCorpus) with
    | none =>
      rw [hfresh] at hspec
      constructor
      · intro hown
        exact .inr fun cfg hcfg => ⟨hspec cfg hcfg, hown cfg hcfg⟩
      · rintro (⟨cfg, hfirst, -⟩ | hneither)
        · obtain ⟨other, hother, hran⟩ := hfirst.ran
          exact absurd (hspec other hother) hran
        · exact fun cfg hcfg => (hneither cfg hcfg).2
    | some best =>
      rw [hfresh] at hspec
      constructor
      · exact fun hoptimal => .inl ⟨_, hspec, hoptimal⟩
      · rintro (⟨cfg, hfirst, hoptimal⟩ | hneither)
        · obtain rfl := First.unique hspec hfirst
          exact hoptimal
        · obtain ⟨other, hother, hran⟩ := First.ran hspec
          exact absurd (hneither other hother).1 hran

-- ---------------------------------------------------------------------------
-- A failing machine
-- ---------------------------------------------------------------------------

/-- Ten entries, so that there is a default one. -/
def tenEntries : TuningHost := {
  siblings with
  registry := List.replicate 10 (siblings.registry.get ⟨0, by decide⟩)
  ensureTextModel := fun _ _ _ => .ok (ascii "models") }

/-- A machine on which every call fails, within a millisecond. -/
def failing (_ : List WorkerCall) : Bool × ℚ := (false, 1)

theorem tunedFor_iff_failing : tenEntries.Misses (siblingRequest 0) [] ∧
    (tenEntries.TunedFor failing (siblingRequest 0) (tenEntries.autotuneText [] (siblingRequest 0)
      (tenEntries.benchmarkTextConfig failing (siblingRequest 0).benchCorpus) .stored).1 ↔
        tenEntries.Transfers failing (siblingRequest 0)) :=
  ⟨fun _ _ => rfl, tunedFor_iff tenEntries failing (siblingRequest 0) [] .stored fun _ _ => rfl⟩

/-- A configuration none of whose calls succeeds is the answer, and is stored. -/
theorem failing_not_tunedFor : tenEntries.Misses (siblingRequest 0) [] ∧
    ¬tenEntries.TunedFor failing (siblingRequest 0) (tenEntries.autotuneText [] (siblingRequest 0)
      (tenEntries.benchmarkTextConfig failing (siblingRequest 0).benchCorpus) .stored).1 := by
  refine ⟨fun _ _ => rfl, ?_⟩
  have hanswer : (tenEntries.autotuneText [] (siblingRequest 0)
      (tenEntries.benchmarkTextConfig failing (siblingRequest 0).benchCorpus) .stored).1 =
        .ok ⟨1, 1, 32, 3000, 1 / 3, 100⟩ := by
    decide +kernel
  rw [hanswer]
  rintro ⟨-, hran, -⟩
  exact hran rfl

end TuningHost

end LibEmbedding
