import LibEmbedding.Foundation.Checked
import LibEmbedding.LlamaSchedulerDelivery

/-!
# The session pool and its scheduler

`LlamaSessionPool`: the contexts and the model, the scheduler whose worker embeds on them,
and the calls that stop the scheduler or destroy the pool. The owner's calls come one after
another; clients and the worker take their steps in between.
-/

namespace LibEmbedding

open Foundation

/-- How far the owner is: in no call, waiting for the worker in `disable_scheduler`, in the
body of the destructor before context `k`, before the members are destroyed, waiting for the
worker there, or done. -/
inductive PoolPhase
  | opened
  | disabling
  | freeing (k : Nat)
  | members
  | joining
  | gone
  deriving DecidableEq

/-- `contexts` and `model` say what has not been freed. `picked` and `results` are the locals
of the `embed_batch` that the worker is in: the context of its text, and `out`. -/
structure LlamaSessionPool (α : Type) where
  contexts : List Bool
  model : Bool
  nextIdx : Nat
  scheduler : Option (LlamaScheduler α String)
  picked : Option Nat
  results : List (List α)
  phase : PoolPhase
  deriving DecidableEq

namespace LlamaSessionPool

variable {α : Type}

/-- A pool that `load_from_file` has given `nSessions` contexts. -/
def loaded (α : Type) (nSessions : Nat) : LlamaSessionPool α :=
  ⟨List.replicate nSessions true, true, 0, none, none, [], .opened⟩

def enableScheduler (s : LlamaSessionPool α) (maxBatchSize : Int) : LlamaSessionPool α :=
  match s.scheduler with
  | some _ => s
  | none => { s with scheduler := some (.new α String maxBatchSize) }

/-- The callback has returned or thrown. -/
def finish (s : LlamaSessionPool α) (scheduler : LlamaScheduler α String)
    (batch : List QueuedRequest) (outcome : Except String (List (List α))) :
    LlamaSessionPool α :=
  { s with scheduler := some (scheduler.process batch outcome), picked := none, results := [] }

/-- `embed` up to the lock of its context. -/
def pick (s : LlamaSessionPool α) (scheduler : LlamaScheduler α String)
    (batch : List QueuedRequest) : LlamaSessionPool α :=
  if s.contexts = [] then
    s.finish scheduler batch (.error "LlamaSessionPool: no contexts available")
  else { s with
    picked := some (s.nextIdx % s.contexts.length)
    nextIdx := (s.nextIdx + 1) % 2 ^ 64 }

/-- What `embed` makes of the results of `llama_encode` and `llama_get_embeddings_seq`. -/
def embedding (ret : Int) (embd : Option (List α)) : Except String (List α) :=
  if ret ≠ 0 then .error "llama_encode failed"
  else match embd with
    | none => .error "Failed to retrieve embeddings"
    | some v => .ok v

/-- The rest of `embed`, which reads the model and the context. -/
def encode (s : LlamaSessionPool α) (scheduler : LlamaScheduler α String)
    (batch : List QueuedRequest) (i : Nat) (ret : Int) (embd : Option (List α)) :
    Checked (LlamaSessionPool α) :=
  if s.model ∧ s.contexts.getD i false then
    match embedding ret embd with
    | .ok v => .ok { s with picked := none, results := s.results ++ [v] }
    | .error what => .ok (s.finish scheduler batch (.error what))
  else .error .dangling

/-- The destructor of the member `scheduler_`, up to the join. -/
def destroyMembers (s : LlamaSessionPool α) : LlamaSessionPool α :=
  match s.scheduler with
  | some scheduler =>
    { s with scheduler := some { scheduler with stop := true }, phase := .joining }
  | none => { s with phase := .gone }

/-- `own` are the steps of the scheduler's clients and of its worker outside the callback. -/
inductive Act (α : Type)
  | enableScheduler (maxBatchSize : Int)
  | disableScheduler
  | destroy
  | freeContext
  | freeModel
  | destroyMembers
  | join
  | own (act : LlamaScheduler.Act α String)
  | pick
  | encode (ret : Int) (embd : Option (List α))
  | done

/-- The scheduler's own steps. The rest of them are the pool's. -/
def isOwn : LlamaScheduler.Act α String → Bool
  | .submit _ | .get _ | .collect | .answer | .rest | .exit => true
  | .setMaxBatchSize _ | .stop | .process _ => false

inductive Step : Checked (LlamaSessionPool α) → Act α → Checked (LlamaSessionPool α) → Prop
  | enableScheduler {s n} : s.phase = .opened →
    Step (.ok s) (.enableScheduler n) (.ok (s.enableScheduler n))
  | disableScheduler {s scheduler} : s.phase = .opened → s.scheduler = some scheduler →
    Step (.ok s) .disableScheduler
      (.ok { s with scheduler := some { scheduler with stop := true }, phase := .disabling })
  | destroy {s} : s.phase = .opened → Step (.ok s) .destroy (.ok { s with phase := .freeing 0 })
  | freeContext {s k} : s.phase = .freeing k → k < s.contexts.length →
    Step (.ok s) .freeContext
      (.ok { s with contexts := s.contexts.set k false, phase := .freeing (k + 1) })
  | freeModel {s} : s.phase = .freeing s.contexts.length →
    Step (.ok s) .freeModel (.ok { s with model := false, phase := .members })
  | destroyMembers {s} : s.phase = .members →
    Step (.ok s) .destroyMembers (.ok s.destroyMembers)
  | disabled {s scheduler} : s.phase = .disabling → s.scheduler = some scheduler →
    scheduler.worker = .exited →
    Step (.ok s) .join (.ok { s with scheduler := none, phase := .opened })
  | joined {s scheduler} : s.phase = .joining → s.scheduler = some scheduler →
    scheduler.worker = .exited →
    Step (.ok s) .join (.ok { s with scheduler := none, phase := .gone })
  | own {s scheduler act scheduler'} : s.scheduler = some scheduler → isOwn act →
    LlamaScheduler.Step scheduler act scheduler' →
    Step (.ok s) (.own act) (.ok { s with scheduler := some scheduler' })
  | pick {s scheduler batch} : s.scheduler = some scheduler →
    scheduler.worker = .processing batch → s.picked = none → s.results.length < batch.length →
    Step (.ok s) .pick (.ok (s.pick scheduler batch))
  | encode {s scheduler batch i ret embd} : s.scheduler = some scheduler →
    scheduler.worker = .processing batch → s.picked = some i →
    Step (.ok s) (.encode ret embd) (s.encode scheduler batch i ret embd)
  | done {s scheduler batch} : s.scheduler = some scheduler →
    scheduler.worker = .processing batch → s.picked = none → s.results.length = batch.length →
    Step (.ok s) .done (.ok (s.finish scheduler batch (.ok s.results)))

/-- Nothing freed has been used. -/
def Safe (x : Checked (LlamaSessionPool α)) : Prop := ∃ s, x = .ok s

/-- A worker that will not come to a context: it has embedded its batch, and takes no other. -/
def Done (scheduler : LlamaScheduler α String) (results : List (List α)) : Prop :=
  (∀ batch, scheduler.worker = .processing batch → batch.length ≤ results.length) ∧
    (scheduler.requests = [] ∨ scheduler.maxBatchSize ≤ 0 ∨ scheduler.stop = true)

/-- The destructor may begin. -/
def Settled (s : LlamaSessionPool α) : Prop :=
  s.contexts = [] ∨ ∀ scheduler, s.scheduler = some scheduler → Done scheduler s.results

/-- A request may be submitted: the pool is not being freed under a worker that can still
take the request. -/
def Admits (s : LlamaSessionPool α) : Prop :=
  s.phase = .opened ∨ s.contexts = [] ∨ ∀ scheduler, s.scheduler = some scheduler →
    scheduler.maxBatchSize ≤ 0 ∨ scheduler.stop = true

/-- What the state before a step has to meet. -/
def Meets (x : Checked (LlamaSessionPool α)) (act : Act α) : Prop :=
  ∀ s, x = .ok s → match act with
    | .destroy => s.Settled
    | .own (.submit _) => s.Admits
    | _ => True

-- ---------------------------------------------------------------------------
-- The worker's own steps
-- ---------------------------------------------------------------------------

/-- The worker stays in the callback through all of them. -/
theorem processing_own {scheduler scheduler' : LlamaScheduler α String}
    (hworker : scheduler.worker = .processing batch) (hown : isOwn act)
    (hstep : LlamaScheduler.Step scheduler act scheduler') :
    scheduler'.worker = .processing batch := by
  cases hstep with
  | submit => exact hworker
  | get => exact hworker
  | setMaxBatchSize => cases hown
  | stop => cases hown
  | collect hidle => cases hworker.symm.trans hidle
  | process => cases hown
  | answer hanswering => cases hworker.symm.trans hanswering
  | rest hanswering => cases hworker.symm.trans hanswering
  | exit hidle => cases hworker.symm.trans hidle

/-- A worker that is done stays so, unless it may take the request that is submitted. -/
theorem Done.own {scheduler scheduler' : LlamaScheduler α String} {results : List (List α)}
    (h : Done scheduler results) (hown : isOwn act)
    (hsubmit : ∀ text, act = .submit text →
      scheduler.maxBatchSize ≤ 0 ∨ scheduler.stop = true)
    (hstep : LlamaScheduler.Step scheduler act scheduler') : Done scheduler' results := by
  obtain ⟨hembedded, hnothing⟩ := h
  cases hstep with
  | submit => exact ⟨hembedded, .inr (hsubmit _ rfl)⟩
  | get => exact ⟨hembedded, hnothing⟩
  | setMaxBatchSize => cases hown
  | stop => cases hown
  | collect hidle hrunning hwaiting =>
    have hmax : scheduler.maxBatchSize ≤ 0 := by
      rcases hnothing with hempty | hmax | hstop
      · exact absurd hempty hwaiting
      · exact hmax
      · cases hstop.symm.trans hrunning
    refine ⟨fun batch hbatch => ?_, .inr (.inl hmax)⟩
    have hnil : (LlamaScheduler.takeBatch scheduler.maxBatchSize [] scheduler.requests).1 = [] := by
      by_contra hne
      exact absurd ((LlamaScheduler.takeBatch_ne_nil hwaiting).mp hne) (not_lt.mpr hmax)
    simp only [LlamaScheduler.collect, if_pos hnil] at hbatch
    cases hbatch
  | process => cases hown
  | answer =>
    refine ⟨fun batch hbatch => ?_, hnothing⟩
    cases hbatch
  | rest =>
    refine ⟨fun batch hbatch => ?_, hnothing⟩
    cases hbatch
  | exit =>
    refine ⟨fun batch hbatch => ?_, hnothing⟩
    cases hbatch

-- ---------------------------------------------------------------------------
-- The order of shutdown
-- ---------------------------------------------------------------------------

/-- Before the destructor everything is alive; from its beginning on the worker is done. A
context is picked for a text of the batch only. -/
structure Sound (s : LlamaSessionPool α) : Prop where
  alive : s.phase = .opened ∨ s.phase = .disabling → s.model ∧ ∀ c ∈ s.contexts, c = true
  picked : ∀ i, s.picked = some i → i < s.contexts.length ∧ ∃ scheduler batch,
    s.scheduler = some scheduler ∧ scheduler.worker = .processing batch ∧
      s.results.length < batch.length
  settled : s.phase ≠ .opened → s.phase ≠ .disabling → s.Settled

theorem sound_loaded (nSessions : Nat) : (loaded α nSessions).Sound := by
  constructor
  case alive => exact fun _ => ⟨rfl, fun c hc => List.eq_of_mem_replicate hc⟩
  case picked =>
    intro i hi
    cases hi
  case settled => exact fun hphase => absurd rfl hphase

/-- The text that is being embedded has its context and its model. -/
theorem Sound.reads {s : LlamaSessionPool α} (h : s.Sound) (hpicked : s.picked = some i) :
    s.model ∧ s.contexts.getD i false := by
  obtain ⟨hi, scheduler, batch, hscheduler, hworker, hleft⟩ := h.picked i hpicked
  by_cases hserving : s.phase = .opened ∨ s.phase = .disabling
  · obtain ⟨hmodel, hcontexts⟩ := h.alive hserving
    refine ⟨hmodel, ?_⟩
    rw [List.getD_eq_getElem?_getD, List.getElem?_eq_getElem hi, Option.getD_some]
    exact hcontexts _ (List.getElem_mem hi)
  · obtain ⟨hopened, hdisabling⟩ := not_or.mp hserving
    rcases h.settled hopened hdisabling with hnone | hdone
    · rw [hnone] at hi
      cases hi
    · exact absurd ((hdone scheduler hscheduler).1 batch hworker) (not_le.mpr hleft)

theorem done_process {scheduler : LlamaScheduler α String} (results results' : List (List α))
    (h : Done scheduler results) (batch : List QueuedRequest)
    (outcome : Except String (List (List α))) :
    Done (scheduler.process batch outcome) results' := by
  refine ⟨fun batch' hbatch => ?_, h.2⟩
  cases hbatch

theorem Sound.finish {s : LlamaSessionPool α} {scheduler : LlamaScheduler α String} (h : s.Sound)
    (hscheduler : s.scheduler = some scheduler) (batch : List QueuedRequest)
    (outcome : Except String (List (List α))) : (s.finish scheduler batch outcome).Sound := by
  constructor
  case alive => exact h.alive
  case picked =>
    intro i hi
    cases hi
  case settled =>
    intro hopened hdisabling
    rcases h.settled hopened hdisabling with hnone | hdone
    · exact .inl hnone
    · refine .inr fun scheduler' hsome => ?_
      cases hsome
      exact done_process _ _ (hdone scheduler hscheduler) batch outcome

theorem Sound.enableScheduler {s : LlamaSessionPool α} (h : s.Sound) (hphase : s.phase = .opened)
    (maxBatchSize : Int) : (s.enableScheduler maxBatchSize).Sound := by
  unfold LlamaSessionPool.enableScheduler
  split
  · exact h
  · rename_i hnone
    constructor
    case alive => exact h.alive
    case picked =>
      intro i hi
      obtain ⟨-, scheduler, batch, hsome, -⟩ := h.picked i hi
      cases hnone.symm.trans hsome
    case settled => exact fun hopened => absurd hphase hopened

/-- Raising the stop flag takes the worker nowhere. -/
theorem Sound.raiseStop {s : LlamaSessionPool α} {scheduler : LlamaScheduler α String} (h : s.Sound)
    (hscheduler : s.scheduler = some scheduler) (phase : PoolPhase)
    (halive : phase = .opened ∨ phase = .disabling → s.phase = .opened ∨ s.phase = .disabling)
    (hsettled : phase ≠ .opened → phase ≠ .disabling → s.Settled) :
    Sound { s with scheduler := some { scheduler with stop := true }, phase } := by
  constructor
  case alive => exact fun hphase => h.alive (halive hphase)
  case picked =>
    intro i hi
    obtain ⟨hlt, scheduler', batch, hsome, hworker, hleft⟩ := h.picked i hi
    cases hscheduler.symm.trans hsome
    exact ⟨hlt, _, batch, rfl, hworker, hleft⟩
  case settled =>
    intro hopened hdisabling
    rcases hsettled hopened hdisabling with hnone | hdone
    · exact .inl hnone
    · refine .inr fun scheduler' hsome => ?_
      cases hsome
      exact ⟨(hdone scheduler hscheduler).1, .inr (.inr rfl)⟩

/-- The destructor goes on. -/
theorem Sound.destruct {s : LlamaSessionPool α} (h : s.Sound) (hsettled : s.Settled)
    {contexts : List Bool} (hlength : contexts.length = s.contexts.length) (model : Bool)
    {phase : PoolPhase} (hopened : phase ≠ .opened) (hdisabling : phase ≠ .disabling) :
    Sound { s with contexts, model, phase } := by
  constructor
  case alive => exact fun hphase => absurd hphase (not_or.mpr ⟨hopened, hdisabling⟩)
  case picked =>
    intro i hi
    rw [hlength]
    exact h.picked i hi
  case settled =>
    intro _ _
    rcases hsettled with hnone | hdone
    · refine .inl (List.length_eq_zero_iff.mp ?_)
      rw [hlength, hnone, List.length_nil]
    · exact .inr hdone

theorem Sound.destroyMembers {s : LlamaSessionPool α} (h : s.Sound) (hsettled : s.Settled) :
    s.destroyMembers.Sound := by
  unfold LlamaSessionPool.destroyMembers
  split
  · rename_i scheduler hscheduler
    exact h.raiseStop hscheduler .joining (fun hphase => absurd hphase (not_or.mpr ⟨nofun, nofun⟩))
      fun _ _ => hsettled
  · exact h.destruct hsettled rfl s.model nofun nofun

/-- Once the worker has gone nothing is picked. -/
theorem Sound.join {s : LlamaSessionPool α} {scheduler : LlamaScheduler α String} (h : s.Sound)
    (hscheduler : s.scheduler = some scheduler) (hexited : scheduler.worker = .exited)
    (phase : PoolPhase)
    (halive : phase = .opened ∨ phase = .disabling → s.phase = .opened ∨ s.phase = .disabling) :
    Sound { s with scheduler := none, phase } := by
  constructor
  case alive => exact fun hphase => h.alive (halive hphase)
  case picked =>
    intro i hi
    obtain ⟨-, scheduler', batch, hsome, hworker, -⟩ := h.picked i hi
    cases hscheduler.symm.trans hsome
    cases hexited.symm.trans hworker
  case settled =>
    refine fun _ _ => .inr fun scheduler' hsome => ?_
    cases hsome

theorem Sound.own {s : LlamaSessionPool α} {scheduler scheduler' : LlamaScheduler α String}
    (h : s.Sound) (hscheduler : s.scheduler = some scheduler) (hown : isOwn act)
    (hadmits : ∀ text, act = .submit text → s.Admits)
    (hstep : LlamaScheduler.Step scheduler act scheduler') :
    Sound { s with scheduler := some scheduler' } := by
  constructor
  case alive => exact h.alive
  case picked =>
    intro i hi
    obtain ⟨hlt, scheduler'', batch, hsome, hworker, hleft⟩ := h.picked i hi
    cases hscheduler.symm.trans hsome
    exact ⟨hlt, scheduler', batch, rfl, processing_own hworker hown hstep, hleft⟩
  case settled =>
    intro hopened hdisabling
    by_cases hnone : s.contexts = []
    · exact .inl hnone
    rcases h.settled hopened hdisabling with hnone' | hdone
    · exact .inl hnone'
    · refine .inr fun scheduler'' hsome => ?_
      cases hsome
      refine (hdone scheduler hscheduler).own hown (fun text htext => ?_) hstep
      rcases hadmits text htext with hphase | hempty | hidle
      · exact absurd hphase hopened
      · exact absurd hempty hnone
      · exact hidle scheduler hscheduler

theorem Sound.pick {s : LlamaSessionPool α} {scheduler : LlamaScheduler α String} (h : s.Sound)
    (hscheduler : s.scheduler = some scheduler) (hworker : scheduler.worker = .processing batch)
    (hleft : s.results.length < batch.length) : (s.pick scheduler batch).Sound := by
  unfold LlamaSessionPool.pick
  split
  · exact h.finish hscheduler batch _
  · rename_i hsome
    constructor
    case alive => exact h.alive
    case picked =>
      intro i hi
      cases hi
      exact ⟨Nat.mod_lt _ (List.length_pos_iff.mpr hsome), scheduler, batch, hscheduler, hworker,
        hleft⟩
    case settled => exact h.settled

theorem Sound.encode {s : LlamaSessionPool α} {scheduler : LlamaScheduler α String} (h : s.Sound)
    (hscheduler : s.scheduler = some scheduler) (hworker : scheduler.worker = .processing batch)
    (hpicked : s.picked = some i) (ret : Int) (embd : Option (List α)) :
    ∃ t, s.encode scheduler batch i ret embd = .ok t ∧ t.Sound := by
  rw [LlamaSessionPool.encode, if_pos (h.reads hpicked)]
  cases embedding ret embd with
  | error what => exact ⟨_, rfl, h.finish hscheduler batch _⟩
  | ok v =>
    refine ⟨_, rfl, ?_⟩
    obtain ⟨hlt, scheduler', batch', hsome, hworker', hleft⟩ := h.picked i hpicked
    cases hscheduler.symm.trans hsome
    cases hworker.symm.trans hworker'
    constructor
    case alive => exact h.alive
    case picked =>
      intro j hj
      cases hj
    case settled =>
      intro hopened hdisabling
      rcases h.settled hopened hdisabling with hnone | hdone
      · exact .inl hnone
      · exact absurd ((hdone scheduler hscheduler).1 batch hworker) (not_le.mpr hleft)

/-- A sound pool that meets what is asked of a step takes it safely. -/
theorem Sound.step {s : LlamaSessionPool α} {x : Checked (LlamaSessionPool α)} (h : s.Sound)
    (hmeets : Meets (.ok s) act) (hstep : Step (.ok s) act x) : ∃ t, x = .ok t ∧ t.Sound := by
  have hmeets := hmeets s rfl
  cases hstep with
  | enableScheduler hphase => exact ⟨_, rfl, h.enableScheduler hphase _⟩
  | disableScheduler hphase hscheduler =>
    exact ⟨_, rfl, h.raiseStop hscheduler .disabling (fun _ => .inl hphase)
      (fun _ hdisabling => absurd rfl hdisabling)⟩
  | destroy => exact ⟨_, rfl, h.destruct hmeets rfl s.model nofun nofun⟩
  | freeContext hphase =>
    have hsettled : s.Settled := h.settled (hphase ▸ nofun) (hphase ▸ nofun)
    exact ⟨_, rfl, h.destruct hsettled (List.length_set ..) s.model nofun nofun⟩
  | freeModel hphase =>
    have hsettled : s.Settled := h.settled (hphase ▸ nofun) (hphase ▸ nofun)
    exact ⟨_, rfl, h.destruct hsettled rfl false nofun nofun⟩
  | destroyMembers hphase =>
    have hsettled : s.Settled := h.settled (hphase ▸ nofun) (hphase ▸ nofun)
    exact ⟨_, rfl, h.destroyMembers hsettled⟩
  | disabled hphase hscheduler hexited =>
    exact ⟨_, rfl, h.join hscheduler hexited .opened fun _ => .inr hphase⟩
  | joined hphase hscheduler hexited =>
    exact ⟨_, rfl, h.join hscheduler hexited .gone fun hgone =>
      absurd hgone (not_or.mpr ⟨nofun, nofun⟩)⟩
  | own hscheduler hown hact =>
    refine ⟨_, rfl, h.own hscheduler hown (fun text htext => ?_) hact⟩
    subst htext
    exact hmeets
  | pick hscheduler hworker _ hleft => exact ⟨_, rfl, h.pick hscheduler hworker hleft⟩
  | encode hscheduler hworker hpicked => exact h.encode hscheduler hworker hpicked _ _
  | done hscheduler => exact ⟨_, rfl, h.finish hscheduler _ _⟩

/-- A run whose steps meet what is asked of them uses nothing freed. -/
theorem safe_of_meets (nSessions : Nat) (acts : List (Act α))
    (h : EveryStep Step (.ok (loaded α nSessions)) acts Meets) :
    Always Step (.ok (loaded α nSessions)) acts Safe := by
  have hsound : Always Step (.ok (loaded α nSessions)) acts fun x => ∃ s, x = .ok s ∧ s.Sound := by
    refine always_of_everyStep ⟨_, rfl, sound_loaded nSessions⟩ ?_ h
    rintro _ act y ⟨s, rfl, hs⟩ hmeets hstep
    exact hs.step hmeets hstep
  intro done x hpre hrun
  obtain ⟨s, hs, -⟩ := hsound done x hpre hrun
  exact ⟨s, hs⟩

/-- A pool whose scheduler is disabled before it is destroyed, with a request left over. -/
theorem safe_of_meets_sample : Always Step (.ok (loaded Nat 1))
    [.enableScheduler 32, .own (.submit [104]), .disableScheduler, .own .exit, .join, .destroy,
      .freeContext, .freeModel] Safe := by
  refine safe_of_meets 1 _ ?_
  refine everyStep_cons (fun _ _ _ _ => trivial) fun u hstep => ?_
  cases hstep
  refine everyStep_cons (fun _ _ s hs => ?_) fun u hstep => ?_
  · cases hs
    exact .inl rfl
  cases hstep with | own hscheduler _ hact => ?_
  cases hscheduler
  cases hact
  refine everyStep_cons (fun _ _ _ _ => trivial) fun u hstep => ?_
  cases hstep with | disableScheduler _ hscheduler => ?_
  cases hscheduler
  refine everyStep_cons (fun _ _ _ _ => trivial) fun u hstep => ?_
  cases hstep with | own hscheduler _ hact => ?_
  cases hscheduler
  cases hact
  refine everyStep_cons (fun _ _ _ _ => trivial) fun u hstep => ?_
  cases hstep with
  | joined hphase => cases hphase
  | disabled => ?_
  refine everyStep_cons (fun _ _ s hs => ?_) fun u hstep => ?_
  · cases hs
    exact .inr nofun
  cases hstep
  refine everyStep_cons (fun _ _ _ _ => trivial) fun u hstep => ?_
  cases hstep
  exact everyStep_cons (fun _ _ _ _ => trivial) fun _ _ => everyStep_nil

def queued : QueuedRequest := ⟨0, some 0, [104]⟩

/-- The scheduler of a pool whose destructor has freed the context and the model. -/
def freed (worker : SchedulerWorker Nat) (requests : List QueuedRequest)
    (collected : List (List QueuedRequest)) (nextIdx : Nat) (picked : Option Nat) :
    LlamaSessionPool Nat :=
  ⟨[false], false, nextIdx, some { LlamaScheduler.new Nat String 32 with
    requests, worker, collected, clients := [⟨[104], none, none⟩] }, picked, [], .members⟩

/-- The destructor frees the context and the model, and the worker takes the batch. -/
theorem freed_under_worker :
    ∃ x, Run Step (.ok (loaded Nat 1)) [.enableScheduler 32, .own (.submit [104]), .destroy,
        .freeContext, .freeModel, .own .collect, .pick, .encode 0 (some [7])] x ∧
      x = .error .dangling ∧ ¬Safe x := by
  have hfreed : Run Step (.ok (loaded Nat 1)) [.enableScheduler 32, .own (.submit [104]),
      .destroy, .freeContext, .freeModel] (.ok (freed .idle [queued] [] 0 none)) := by
    have henabled : Run Step (.ok (loaded Nat 1)) [.enableScheduler 32]
        (.ok ((loaded Nat 1).enableScheduler 32)) := Run.start.next (.enableScheduler rfl)
    exact ((((henabled.next (.own rfl rfl .submit)).next (.destroy rfl)).next
      (.freeContext rfl Nat.zero_lt_one)).next (.freeModel rfl))
  have hcollect : Step (.ok (freed .idle [queued] [] 0 none)) (.own .collect)
      (.ok (freed (.processing [queued]) [] [[queued]] 0 none)) :=
    .own rfl rfl (.collect rfl rfl (List.cons_ne_nil _ _))
  have hpick : Step (.ok (freed (.processing [queued]) [] [[queued]] 0 none)) .pick
      (.ok (freed (.processing [queued]) [] [[queued]] 1 (some 0))) :=
    .pick rfl rfl rfl Nat.zero_lt_one
  have hencode : Step (.ok (freed (.processing [queued]) [] [[queued]] 1 (some 0)))
      (.encode 0 (some [7])) (.error .dangling) := .encode rfl rfl rfl
  refine ⟨_, ((hfreed.next hcollect).next hpick).next hencode, rfl, ?_⟩
  rintro ⟨s, hs⟩
  cases hs

end LlamaSessionPool

end LibEmbedding
