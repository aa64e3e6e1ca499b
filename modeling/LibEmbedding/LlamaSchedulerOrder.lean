import LibEmbedding.LlamaSchedulerDelivery

/-!
# The order of the scheduler

Requests are collected, and answered, in the order they came in. As long as nobody stops the
scheduler and its batches may hold something, the worker comes to the end of what has been
submitted, and in no more steps than `left` counts.
-/

namespace LibEmbedding

open Foundation

namespace LlamaScheduler

variable {α ε : Type} {s t : LlamaScheduler α ε} {act : Act α ε} {acts : List (Act α ε)}
  {maxBatchSize : Int}

-- ---------------------------------------------------------------------------
-- First come, first served
-- ---------------------------------------------------------------------------

/-- The promises in the order of submission: those that are set, those of the batch, those of the
queue; and the batches that have been collected, then the queue. -/
structure InTurn (s : LlamaScheduler α ε) : Prop where
  answers : s.promises = List.range s.clients.length
  batches : (s.collected.flatten ++ s.requests).map (·.promise) = List.range s.clients.length

theorem inTurn_new (maxBatchSize : Int) : (new α ε maxBatchSize).InTurn := ⟨rfl, rfl⟩

theorem InTurn.frame (h : s.InTurn) (hpromises : t.promises = s.promises)
    (hcollected : t.collected = s.collected) (hrequests : t.requests = s.requests)
    (hclients : t.clients.length = s.clients.length) : t.InTurn := by
  refine ⟨?_, ?_⟩
  · rw [hpromises, hclients]
    exact h.answers
  · rw [hcollected, hrequests, hclients]
    exact h.batches

theorem InTurn.submit (h : s.InTurn) (text : Bytes) : (s.submit text).InTurn := by
  have hanswers := h.answers
  have hbatches := h.batches
  refine ⟨?_, ?_⟩
  · simp only [promises, LlamaScheduler.submit, List.map_append, List.length_append,
      List.length_singleton, List.range_succ, ← List.append_assoc] at hanswers ⊢
    rw [hanswers]
    rfl
  · simp only [LlamaScheduler.submit, List.map_append, List.length_append, List.length_singleton,
      List.range_succ, ← List.append_assoc] at hbatches ⊢
    rw [hbatches]
    rfl

theorem collect_collected (s : LlamaScheduler α ε) :
    s.collect.collected.flatten ++ s.collect.requests = s.collected.flatten ++ s.requests := by
  have happend := takeBatch_append s.maxBatchSize [] s.requests
  simp only [collect, List.flatten_append, List.flatten_singleton, List.append_assoc]
  rw [happend, List.nil_append]

theorem InTurn.collect (h : s.InTurn) (hidle : s.worker = .idle) : s.collect.InTurn := by
  refine ⟨?_, ?_⟩
  · have hsplit := s.collect_split
    have hnone : s.worker.unanswered = [] := by
      rw [hidle]
      rfl
    have hsame : s.collect.promises = s.promises := by
      rw [promises, promises, List.append_assoc, ← List.map_append, hsplit, hnone, List.map_nil,
        List.append_nil]
      rfl
    rw [hsame]
    exact h.answers
  · rw [collect_collected]
    exact h.batches

theorem InTurn.step (h : s.InTurn) (hstep : Step s act t) : t.InTurn := by
  cases hstep with
  | submit => exact h.submit _
  | get => exact h.frame rfl rfl rfl List.length_set
  | setMaxBatchSize => exact h.frame rfl rfl rfl rfl
  | stop => exact h.frame rfl rfl rfl rfl
  | collect hidle => exact h.collect hidle
  | process hworker =>
    refine h.frame ?_ rfl rfl rfl
    rw [promises, promises, hworker]
    rfl
  | @answer _ batch embeddings i request hworker hrequest =>
    refine h.frame ?_ rfl rfl rfl
    obtain ⟨hi, rfl⟩ := List.getElem?_eq_some_iff.mp hrequest
    have hrest : s.worker.unanswered = batch[i] :: batch.drop (i + 1) := by
      rw [hworker]
      exact List.drop_eq_getElem_cons hi
    rw [promises, promises, hrest]
    simp only [LlamaScheduler.answer, SchedulerWorker.unanswered, List.map_append, List.map_cons,
      List.map_nil, List.append_assoc, List.cons_append, List.nil_append]
  | rest hworker hend =>
    refine h.frame ?_ rfl rfl rfl
    have hnone : s.worker.unanswered = [] := by
      rw [hworker]
      exact List.drop_of_length_le (List.getElem?_eq_none_iff.mp hend)
    rw [promises, promises, hnone]
    rfl
  | exit hidle =>
    refine h.frame ?_ rfl rfl rfl
    rw [promises, promises, hidle]
    rfl

theorem Run.inTurn (hrun : Run Step (new α ε maxBatchSize) acts s) : s.InTurn :=
  hrun.invariant (inTurn_new maxBatchSize) fun _ _ _ h hstep => h.step hstep

/-- An initial part of a range is a range. -/
theorem prefix_range {l : List Nat} {n : Nat} (h : l <+: List.range n) :
    l = List.range l.length := by
  obtain ⟨rest, hrest⟩ := h
  have hle : l.length ≤ n := by
    have hlength := congrArg List.length hrest
    rw [List.length_append, List.length_range] at hlength
    omega
  have htake := congrArg (List.take l.length) hrest
  rwa [List.take_left, List.take_range, min_eq_left hle] at htake

-- ---------------------------------------------------------------------------
-- The size of a batch
-- ---------------------------------------------------------------------------

theorem length_takeBatch {limit : Int} (hlimit : maxBatchSize ≤ limit) (hmax : limit ≤ intMax)
    {batch requests : List QueuedRequest} (hbatch : (batch.length : Int) ≤ max limit 0) :
    ((takeBatch maxBatchSize batch requests).1.length : Int) ≤ max limit 0 := by
  induction requests generalizing batch with
  | nil => exact hbatch
  | cons request requests ih =>
    unfold takeBatch
    split
    · rename_i hroom
      have hfits : toInt32 batch.length = batch.length := by
        apply toInt32_eq
        simp only [intMax] at hmax
        omega
      apply ih
      rw [hfits] at hroom
      simp only [List.length_append, List.length_singleton, Nat.cast_add, Nat.cast_one]
      omega
    · exact hbatch

/-- The sizes that are set stay below a limit, and so do the batches. -/
structure Sized (limit : Int) (s : LlamaScheduler α ε) : Prop where
  size : s.maxBatchSize ≤ limit
  batches : ∀ batch ∈ s.collected, (batch.length : Int) ≤ max limit 0

theorem Sized.step {limit : Int} (h : s.Sized limit) (hmax : limit ≤ intMax)
    (hset : ∀ n, act = .setMaxBatchSize n → n ≤ limit) (hstep : Step s act t) : t.Sized limit := by
  cases hstep with
  | setMaxBatchSize => exact ⟨hset _ rfl, h.batches⟩
  | collect =>
    refine ⟨h.size, fun batch hbatch => ?_⟩
    rcases List.mem_append.mp hbatch with hold | hnew
    · exact h.batches batch hold
    · rw [List.mem_singleton.mp hnew]
      exact length_takeBatch h.size hmax (by simp)
  | _ => exact ⟨h.size, h.batches⟩

theorem Run.sized {limit : Int} (hrun : Run Step (new α ε maxBatchSize) acts s)
    (hmax : limit ≤ intMax) (hnew : maxBatchSize ≤ limit)
    (hset : ∀ n, .setMaxBatchSize n ∈ acts → n ≤ limit) : s.Sized limit := by
  induction hrun with
  | start => exact ⟨hnew, fun batch hbatch => absurd hbatch List.not_mem_nil⟩
  | next _ hstep ih =>
    refine (ih fun n hn => hset n (List.mem_append_left _ hn)).step hmax ?_ hstep
    rintro n rfl
    exact hset n (List.mem_append_right _ List.mem_cons_self)

/-- However clients, owner and worker interleave: promises are set in the order of the submissions,
the batches that were collected and the queue are the submitted requests in that order, and none of
the batches is larger than a limit on the sizes that were set. -/
theorem served_in_turn {limit : Int} (hrun : Run Step (new α ε maxBatchSize) acts s)
    (hmax : limit ≤ intMax) (hnew : maxBatchSize ≤ limit)
    (hset : ∀ n, .setMaxBatchSize n ∈ acts → n ≤ limit) :
    s.answers.map (·.1) = List.range s.answers.length ∧
      (s.collected.flatten ++ s.requests).map (·.promise) = List.range s.clients.length ∧
      ∀ batch ∈ s.collected, (batch.length : Int) ≤ max limit 0 := by
  have hturn := Run.inTurn hrun
  refine ⟨?_, hturn.batches, (Run.sized hrun hmax hnew hset).batches⟩
  have hprefix : s.answers.map (·.1) <+: List.range s.clients.length := by
    rw [← hturn.answers, promises, List.append_assoc]
    exact List.prefix_append _ _
  simpa using prefix_range hprefix

theorem served_in_turn_two : ∃ s : LlamaScheduler Nat String,
    Run Step (new Nat String 1) [.submit [104], .submit [105], .collect] s ∧
      s.answers.map (·.1) = List.range s.answers.length ∧
      (s.collected.flatten ++ s.requests).map (·.promise) = List.range 2 ∧
      ∀ batch ∈ s.collected, (batch.length : Int) ≤ 1 := by
  have hrun : Run Step (new Nat String 1) [.submit [104], .submit [105], .collect]
      (((new Nat String 1).submit [104]).submit [105]).collect :=
    ((Run.start.next .submit).next .submit).next (.collect rfl rfl (List.cons_ne_nil _ _))
  obtain ⟨hanswers, hbatches, hsizes⟩ := served_in_turn hrun (by decide : (1 : Int) ≤ intMax)
    le_rfl fun n hn => by simp at hn
  exact ⟨_, hrun, hanswers, hbatches, hsizes⟩

-- ---------------------------------------------------------------------------
-- The worker comes to an end
-- ---------------------------------------------------------------------------

/-- What the worker does by itself. -/
def Act.IsWork : Act α ε → Prop
  | .collect | .process _ | .answer | .rest => True
  | _ => False

/-- The steps a worker has left at most. -/
def left (s : LlamaScheduler α ε) : Nat :=
  4 * s.requests.length + match s.worker with
    | .processing batch => batch.length + 2
    | .answering batch _ i => batch.length - i + 1
    | _ => 0

/-- The worker goes on, and its batches may hold something. -/
structure Working (s : LlamaScheduler α ε) : Prop where
  turn : s.InTurn
  runs : s.stop = false
  size : 0 < s.maxBatchSize
  stays : s.worker ≠ .exited

theorem left_collect (hsize : 0 < s.maxBatchSize) (hidle : s.worker = .idle)
    (hwaiting : s.requests ≠ []) : s.collect.left < s.left ∧ s.collect.worker ≠ .exited := by
  have happend := congrArg List.length (takeBatch_append s.maxBatchSize [] s.requests)
  have hne := (takeBatch_ne_nil hwaiting).mpr hsize
  have hpos := List.length_pos_of_ne_nil hne
  simp only [List.length_append, List.nil_append] at happend
  refine ⟨?_, ?_⟩
  · simp only [left, collect, if_neg hne, hidle]
    omega
  · simp [collect, if_neg hne]

/-- A step of the worker is one step less to go. -/
theorem Working.step (h : s.Working) (hwork : act.IsWork) (hstep : Step s act t) :
    t.Working ∧ t.left < s.left ∧ t.clients = s.clients := by
  have hturn := h.turn.step hstep
  cases hstep with
  | collect hidle _ hwaiting =>
    obtain ⟨hless, hstays⟩ := left_collect h.size hidle hwaiting
    exact ⟨⟨hturn, h.runs, h.size, hstays⟩, hless, rfl⟩
  | process hworker =>
    refine ⟨⟨hturn, h.runs, h.size, by simp [process]⟩, ?_, rfl⟩
    simp only [left, process, hworker]
    omega
  | answer hworker hrequest =>
    have hi := (List.getElem?_eq_some_iff.mp hrequest).1
    refine ⟨⟨hturn, h.runs, h.size, by simp [answer]⟩, ?_, rfl⟩
    simp only [left, answer, hworker]
    omega
  | rest hworker =>
    refine ⟨⟨hturn, h.runs, h.size, by simp⟩, ?_, rfl⟩
    simp only [left, hworker]
    omega
  | submit | get | setMaxBatchSize | stop | exit => cases hwork

/-- A worker who cannot go on has answered everything. -/
theorem Working.done (h : s.Working) (hstuck : ∀ act t, act.IsWork → ¬Step s act t) :
    s.answers.map (·.1) = List.range s.clients.length := by
  have hturn := h.turn.answers
  cases hworker : s.worker with
  | idle =>
    have hempty : s.requests = [] := by
      by_contra hwaiting
      exact hstuck .collect _ trivial (.collect hworker h.runs hwaiting)
    simpa [promises, hworker, hempty, SchedulerWorker.unanswered] using hturn
  | processing batch => exact absurd (.process hworker) (hstuck (.process (.ok [])) _ trivial)
  | answering batch embeddings i =>
    cases hrequest : batch[i]? with
    | some request => exact absurd (.answer hworker hrequest) (hstuck .answer _ trivial)
    | none => exact absurd (.rest hworker hrequest) (hstuck .rest _ trivial)
  | exited => exact absurd hworker h.stays

/-- Nobody has stopped the scheduler, and it has not gone. -/
theorem stays_of_runs (hrun : Run Step (new α ε maxBatchSize) acts s) (hstop : s.stop = false) :
    s.worker ≠ .exited := by
  have hinv : s.worker = .exited → s.stop = true := by
    refine hrun.invariant (I := fun s => s.worker = .exited → s.stop = true)
      (fun hworker => by cases hworker) ?_
    intro t act u ht hstep
    cases hstep with
    | stop => exact fun _ => rfl
    | exit _ hstop => exact fun _ => hstop
    | collect =>
      intro hworker
      simp only [collect] at hworker
      split at hworker
      · cases hworker
      · cases hworker
    | process | answer | rest =>
      intro hworker
      cases hworker
    | submit | get | setMaxBatchSize => exact ht
  intro hworker
  rw [hinv hworker] at hstop
  cases hstop

/-- From every state that the scheduler can come to without a stop, the worker needs a bounded
number of steps of its own, whatever comes of the batches, and when it has none left every
submission has its answer. -/
theorem drains (hrun : Run Step (new α ε maxBatchSize) acts s) (hstop : s.stop = false)
    (hsize : 0 < s.maxBatchSize) {later : List (Act α ε)} (hwork : ∀ act ∈ later, act.IsWork)
    (hlater : Run Step s later t) :
    later.length ≤ s.left ∧ ((∀ act u, act.IsWork → ¬Step t act u) →
      t.answers.map (·.1) = List.range s.clients.length) := by
  have hs : s.Working := ⟨Run.inTurn hrun, hstop, hsize, stays_of_runs hrun hstop⟩
  have hrest : t.Working ∧ later.length + t.left ≤ s.left ∧ t.clients = s.clients := by
    induction hlater with
    | start => exact ⟨hs, by simp, rfl⟩
    | @next done u act v _ hstep ih =>
      obtain ⟨hu, hless, hclients⟩ := ih fun act hact => hwork act (List.mem_append_left _ hact)
      obtain ⟨hv, hnext, hsame⟩ :=
        hu.step (hwork act (List.mem_append_right _ List.mem_cons_self)) hstep
      refine ⟨hv, ?_, hsame.trans hclients⟩
      rw [List.length_append, List.length_singleton]
      omega
  obtain ⟨ht, hless, hclients⟩ := hrest
  refine ⟨by omega, fun hstuck => ?_⟩
  rw [← hclients]
  exact ht.done hstuck

/-- One submission is answered in four steps of the worker. -/
theorem drains_one : ∃ s : LlamaScheduler Nat String,
    Run Step ((new Nat String 32).submit [104])
      [.collect, .process (.ok [[7]]), .answer, .rest] s ∧
      4 ≤ ((new Nat String 32).submit [104]).left ∧ s.answers.map (·.1) = List.range 1 := by
  have hrun : Run Step (new Nat String 32) [.submit [104]] ((new Nat String 32).submit [104]) :=
    Run.start.next .submit
  have hlater : Run Step ((new Nat String 32).submit [104])
      [.collect, .process (.ok [[7]]), .answer, .rest] answeredOne :=
    (((Run.start.next (.collect rfl rfl (List.cons_ne_nil _ _))).next (.process rfl)).next
      (.answer rfl rfl)).next (.rest rfl rfl)
  have hstuck : ∀ act u, act.IsWork → ¬Step answeredOne act u := by
    intro act u hwork hstep
    cases hstep with
    | collect _ _ hwaiting => exact hwaiting rfl
    | process hworker | answer hworker | rest hworker => cases hworker
    | submit | get | setMaxBatchSize | stop | exit => cases hwork
  obtain ⟨hfour, hall⟩ := drains hrun rfl (by decide) (by simp [Act.IsWork]) hlater
  exact ⟨answeredOne, hlater, hfour, hall hstuck⟩

end LlamaScheduler

end LibEmbedding
