import LibEmbedding.Foundation.Runs
import LibEmbedding.LlamaScheduler

/-!
# What the scheduler delivers

Every answer is the right one for its own text, no request is answered twice, none is left
behind: what a step has to meet for that, and that nothing less will do.
-/

namespace LibEmbedding

open Foundation

namespace SchedulerWorker

variable {α : Type}

/-- The requests of its batch that the worker has not answered. -/
def unanswered : SchedulerWorker α → List QueuedRequest
  | .processing batch => batch
  | .answering batch _ i => batch.drop i
  | _ => []

end SchedulerWorker

namespace LlamaScheduler

variable {α ε : Type}

-- ---------------------------------------------------------------------------
-- What is promised
-- ---------------------------------------------------------------------------

/-- What the text at place `i` of a batch is due, by what came of the batch. -/
def Due (outcome : Except ε (List (List α))) (i : Nat) (a : Answer α ε) : Prop :=
  match outcome with
  | .ok embeddings => ∃ v, embeddings[i]? = some v ∧ a = .ok v
  | .error e => a = .error (.thrown e)

/-- The answer is what `process_batch` made of the text that the client submitted. -/
def Right (s : LlamaScheduler α ε) (p : Nat) (a : Answer α ε) : Prop :=
  ∃ batch outcome i request client, (batch, outcome) ∈ s.processed ∧ batch[i]? = some request ∧
    request.promise = p ∧ s.clients[p]? = some client ∧ request.text = client.text ∧
      Due outcome i a

/-- `served` says that a worker who finds requests waiting takes one along. -/
structure Delivers (s : LlamaScheduler α ε) : Prop where
  own : ∀ p a, (p, a) ∈ s.answers → s.Right p a
  received : ∀ p client a, s.clients[p]? = some client → client.result = some a → s.Right p a
  once : (s.answers.map (·.1)).Nodup
  served : ∀ batch ∈ s.collected, batch ≠ []
  emptied : s.worker = .exited → s.requests = []

/-- What the state before a step has to meet. No `get` meets it. -/
def Meets (s : LlamaScheduler α ε) : Act α ε → Prop
  | .submit _ => s.worker ≠ .exited
  | .get _ => False
  | .collect => 0 < s.maxBatchSize
  | .answer => ∀ batch embeddings i, s.worker = .answering batch embeddings i →
      embeddings.getD i [] ≠ []
  | .exit => s.requests = []
  | _ => True

-- ---------------------------------------------------------------------------
-- The requests and their promises
-- ---------------------------------------------------------------------------

/-- A request carries the text of the client it belongs to. -/
def Belongs (s : LlamaScheduler α ε) (request : QueuedRequest) : Prop :=
  ∃ client, s.clients[request.promise]? = some client ∧ request.text = client.text

/-- The promises, those that are set, those of the batch and those in the queue. -/
def promises (s : LlamaScheduler α ε) : List Nat :=
  s.answers.map (·.1) ++ s.worker.unanswered.map (·.promise) ++ s.requests.map (·.promise)

/-- Each promise is in one place, with its own client's text. -/
structure Coherent (s : LlamaScheduler α ε) : Prop where
  distinct : s.promises.Nodup
  known : ∀ p ∈ s.promises, p < s.clients.length
  queued : ∀ request ∈ s.requests, s.Belongs request
  held : ∀ request ∈ s.worker.unanswered, s.Belongs request
  moved : ∀ client ∈ s.clients, client.future = none
  answering : ∀ batch embeddings i, s.worker = .answering batch embeddings i →
    ∃ outcome, (batch, outcome) ∈ s.processed ∧ embeddings = embeddingsOf batch outcome

theorem takeBatch_append (maxBatchSize : Int) (batch requests : List QueuedRequest) :
    (takeBatch maxBatchSize batch requests).1 ++ (takeBatch maxBatchSize batch requests).2 =
      batch ++ requests := by
  induction requests generalizing batch with
  | nil => rfl
  | cons request requests ih =>
    unfold takeBatch
    split
    · rw [ih, List.append_assoc, List.singleton_append]
    · rfl

theorem takeBatch_prefix (maxBatchSize : Int) (batch requests : List QueuedRequest) :
    batch <+: (takeBatch maxBatchSize batch requests).1 := by
  induction requests generalizing batch with
  | nil => exact List.prefix_rfl
  | cons request requests ih =>
    unfold takeBatch
    split
    · exact (List.prefix_append batch [request]).trans (ih _)
    · exact List.prefix_rfl

/-- The worker goes away empty-handed exactly when the size allows nothing. -/
theorem takeBatch_ne_nil {maxBatchSize : Int} {requests : List QueuedRequest}
    (h : requests ≠ []) : (takeBatch maxBatchSize [] requests).1 ≠ [] ↔ 0 < maxBatchSize := by
  cases requests with
  | nil => exact absurd rfl h
  | cons request requests =>
    have hzero : toInt32 ([] : List QueuedRequest).length = 0 := rfl
    unfold takeBatch
    rw [hzero]
    split
    · rename_i hpos
      refine iff_of_true (fun hnil => ?_) hpos
      have hpre := takeBatch_prefix maxBatchSize ([] ++ [request]) requests
      rw [hnil] at hpre
      cases List.prefix_nil.mp hpre
    · rename_i hnone
      exact iff_of_false (fun hne => hne rfl) hnone

/-- What the worker has and the queue has left is what there was. -/
theorem collect_split (s : LlamaScheduler α ε) :
    s.collect.worker.unanswered ++ s.collect.requests = s.requests := by
  have happend := takeBatch_append s.maxBatchSize [] s.requests
  unfold collect
  dsimp only
  split
  · rename_i hnil
    rw [hnil, List.nil_append] at happend
    exact happend
  · exact happend

theorem Coherent.submit {s : LlamaScheduler α ε} (h : s.Coherent) (text : Bytes) :
    (s.submit text).Coherent := by
  have hpromises : (s.submit text).promises = s.promises ++ [s.clients.length] := by
    simp [promises, LlamaScheduler.submit]
  have hbelongs {request : QueuedRequest} (hr : s.Belongs request) :
      (s.submit text).Belongs request := by
    obtain ⟨client, hclient, htext⟩ := hr
    have hlt := (List.getElem?_eq_some_iff.mp hclient).1
    refine ⟨client, ?_, htext⟩
    rw [LlamaScheduler.submit, List.getElem?_append_left hlt, hclient]
  constructor
  case distinct =>
    rw [hpromises, List.nodup_append]
    refine ⟨h.distinct, List.nodup_singleton _, fun p hp q hq => ?_⟩
    rw [List.mem_singleton.mp hq]
    exact (h.known p hp).ne
  case known =>
    intro p hp
    rw [hpromises, List.mem_append, List.mem_singleton] at hp
    rw [LlamaScheduler.submit, List.length_append, List.length_singleton]
    rcases hp with hp | rfl
    · exact Nat.lt_succ_of_lt (h.known p hp)
    · exact Nat.lt_succ_self _
  case queued =>
    intro request hrequest
    rcases List.mem_append.mp hrequest with hold | hnew
    · exact hbelongs (h.queued request hold)
    · rw [List.mem_singleton.mp hnew]
      refine ⟨⟨text, none, none⟩, ?_, rfl⟩
      exact List.getElem?_concat_length
  case held => exact fun request hrequest => hbelongs (h.held request hrequest)
  case moved =>
    intro client hclient
    rcases List.mem_append.mp hclient with hold | hnew
    · exact h.moved client hold
    · rw [List.mem_singleton.mp hnew]
  case answering => exact h.answering

theorem Coherent.collect {s : LlamaScheduler α ε} (h : s.Coherent) (hidle : s.worker = .idle) :
    s.collect.Coherent := by
  have hsplit := s.collect_split
  have hpromises : s.collect.promises = s.promises := by
    have hanswers : s.collect.answers = s.answers := rfl
    have hnone : s.worker.unanswered = [] := by
      rw [hidle]
      rfl
    rw [promises, promises, hanswers, hnone, List.append_assoc, ← List.map_append, hsplit,
      List.map_nil, List.append_nil]
  have hmem {request : QueuedRequest}
      (hr : request ∈ s.collect.worker.unanswered ++ s.collect.requests) :
      s.collect.Belongs request := h.queued request (hsplit ▸ hr)
  constructor
  case distinct => exact hpromises ▸ h.distinct
  case known => exact fun p hp => h.known p (hpromises ▸ hp)
  case queued => exact fun request hr => hmem (List.mem_append_right _ hr)
  case held => exact fun request hr => hmem (List.mem_append_left _ hr)
  case moved => exact h.moved
  case answering =>
    intro batch embeddings i hworker
    simp only [LlamaScheduler.collect] at hworker
    split at hworker
    · cases hworker
    · cases hworker

/-- A step that leaves the queue alone and keeps the rest of a batch in its place. -/
theorem Coherent.frame {s t : LlamaScheduler α ε} (h : s.Coherent)
    (hrequests : t.requests = s.requests) (hpromises : t.promises = s.promises)
    (hheld : t.worker.unanswered ⊆ s.worker.unanswered)
    (hclients : t.clients.map (·.text) = s.clients.map (·.text))
    (hmoved : ∀ client ∈ t.clients, client.future = none)
    (hanswering : ∀ batch embeddings i, t.worker = .answering batch embeddings i →
      ∃ outcome, (batch, outcome) ∈ t.processed ∧ embeddings = embeddingsOf batch outcome) :
    t.Coherent := by
  have hbelongs {request : QueuedRequest} (hr : s.Belongs request) : t.Belongs request := by
    obtain ⟨client, hclient, htext⟩ := hr
    have hat := congrArg (·[request.promise]?) hclients
    simp only [List.getElem?_map, hclient, Option.map_some, Option.map_eq_some_iff] at hat
    obtain ⟨client', hclient', hsame⟩ := hat
    exact ⟨client', hclient', htext.trans hsame.symm⟩
  constructor
  case distinct => exact hpromises ▸ h.distinct
  case known =>
    intro p hp
    have hlength := congrArg List.length hclients
    rw [List.length_map, List.length_map] at hlength
    rw [hlength]
    exact h.known p (hpromises ▸ hp)
  case queued => exact fun request hr => hbelongs (h.queued request (hrequests ▸ hr))
  case held => exact fun request hr => hbelongs (h.held request (hheld hr))
  case moved => exact hmoved
  case answering => exact hanswering

theorem map_set_text {clients : List (SchedulerClient α ε)} {client : SchedulerClient α ε}
    (hclient : clients[p]? = some client) (result : Option (Answer α ε)) :
    (clients.set p { client with result }).map (·.text) = clients.map (·.text) := by
  refine List.ext_getElem? fun i => ?_
  rw [List.getElem?_map, List.getElem?_set, List.getElem?_map]
  by_cases hi : p = i
  · subst hi
    rw [if_pos rfl, if_pos (List.getElem?_eq_some_iff.mp hclient).1, hclient]
    rfl
  · rw [if_neg hi]

theorem Coherent.step {s t : LlamaScheduler α ε} (h : s.Coherent) (hstep : Step s act t) :
    t.Coherent := by
  cases hstep with
  | submit => exact h.submit _
  | get hclient hwaits hget =>
    refine h.frame rfl rfl (List.Subset.refl _) (map_set_text hclient _) ?_ h.answering
    intro client' hmem
    rcases List.mem_or_eq_of_mem_set hmem with hold | rfl
    · exact h.moved client' hold
    · have hmoved := h.moved _ (List.mem_of_getElem? hclient)
      exact hmoved
  | setMaxBatchSize => exact h.frame rfl rfl (List.Subset.refl _) rfl h.moved h.answering
  | stop => exact h.frame rfl rfl (List.Subset.refl _) rfl h.moved h.answering
  | collect hidle => exact h.collect hidle
  | @process _ batch outcome hworker =>
    have hunanswered : (s.process batch outcome).worker.unanswered = s.worker.unanswered := by
      rw [hworker]
      exact List.drop_zero
    refine h.frame rfl ?_ (hunanswered ▸ List.Subset.refl _) rfl h.moved ?_
    · rw [promises, hunanswered]
      rfl
    · intro batch' embeddings i hnew
      cases hnew
      exact ⟨outcome, List.mem_concat_self, rfl⟩
  | @answer _ batch embeddings i request hworker hrequest =>
    obtain ⟨hi, rfl⟩ := List.getElem?_eq_some_iff.mp hrequest
    have hrest : s.worker.unanswered = batch[i] :: batch.drop (i + 1) := by
      rw [hworker]
      exact List.drop_eq_getElem_cons hi
    refine h.frame rfl ?_ ?_ rfl h.moved ?_
    · rw [promises, promises, hrest]
      simp only [LlamaScheduler.answer, SchedulerWorker.unanswered, List.map_append, List.map_cons,
        List.map_nil, List.append_assoc, List.cons_append, List.nil_append]
    · rw [hrest]
      exact List.subset_cons_self _ _
    · intro batch' embeddings' i' hnew
      cases hnew
      exact h.answering batch embeddings i hworker
  | @rest _ batch embeddings i hworker hend =>
    have hnone : s.worker.unanswered = [] := by
      rw [hworker]
      exact List.drop_of_length_le (List.getElem?_eq_none_iff.mp hend)
    refine h.frame rfl ?_ (List.nil_subset _) rfl h.moved ?_
    · rw [promises, promises, hnone]
      rfl
    · intro batch' embeddings' i' hnew
      cases hnew
  | exit hidle hstop =>
    have hnone : s.worker.unanswered = [] := by
      rw [hidle]
      rfl
    refine h.frame rfl ?_ (List.nil_subset _) rfl h.moved ?_
    · rw [promises, promises, hnone]
      rfl
    · intro batch' embeddings' i' hnew
      cases hnew

theorem coherent_new (maxBatchSize : Int) : (new α ε maxBatchSize).Coherent := by
  constructor
  case distinct => exact List.nodup_nil
  case known => exact fun p hp => absurd hp List.not_mem_nil
  case queued => exact fun request hr => absurd hr List.not_mem_nil
  case held => exact fun request hr => absurd hr List.not_mem_nil
  case moved => exact fun client hc => absurd hc List.not_mem_nil
  case answering =>
    intro batch embeddings i hworker
    cases hworker

-- ---------------------------------------------------------------------------
-- What one step delivers
-- ---------------------------------------------------------------------------

/-- What was right stays right: batches and texts are only added. -/
theorem Right.mono {s t : LlamaScheduler α ε} (h : s.Right p a)
    (hprocessed : s.processed ⊆ t.processed)
    (hclients : s.clients.map (·.text) <+: t.clients.map (·.text)) : t.Right p a := by
  obtain ⟨batch, outcome, i, request, client, hmem, hrequest, hp, hclient, htext, hdue⟩ := h
  have hat : (t.clients.map (·.text))[p]? = some client.text := by
    refine List.prefix_iff_getElem?.mp hclients p ?_ |>.trans ?_
    · rw [List.length_map]
      exact (List.getElem?_eq_some_iff.mp hclient).1
    · obtain ⟨hlt, rfl⟩ := List.getElem?_eq_some_iff.mp hclient
      rw [List.getElem_map]
  rw [List.getElem?_map, Option.map_eq_some_iff] at hat
  obtain ⟨client', hclient', hsame⟩ := hat
  exact ⟨batch, outcome, i, request, client', hprocessed hmem, hrequest, hp, hclient',
    htext.trans hsame.symm, hdue⟩

theorem not_right_noState (s : LlamaScheduler α ε) (p : Nat) :
    ¬s.Right p (.error .noState) := by
  rintro ⟨batch, outcome, i, request, client, -, -, -, -, -, hdue⟩
  cases outcome with
  | ok embeddings =>
    obtain ⟨v, -, hv⟩ := hdue
    cases hv
  | error e => cases hdue

theorem not_right_runtimeError (s : LlamaScheduler α ε) (p : Nat) (what : String) :
    ¬s.Right p (.error (.runtimeError what)) := by
  rintro ⟨batch, outcome, i, request, client, -, -, -, -, -, hdue⟩
  cases outcome with
  | ok embeddings =>
    obtain ⟨v, -, hv⟩ := hdue
    cases hv
  | error e => cases hdue

/-- A step that adds nothing wrong. -/
theorem Delivers.mono {s t : LlamaScheduler α ε} (h : s.Delivers) (ht : t.Coherent)
    (hprocessed : s.processed ⊆ t.processed)
    (hclients : s.clients.map (·.text) <+: t.clients.map (·.text))
    (hanswers : ∀ p a, (p, a) ∈ t.answers → (p, a) ∈ s.answers ∨ t.Right p a)
    (hresults : ∀ (p : Nat) (client : SchedulerClient α ε) a, t.clients[p]? = some client →
      client.result = some a → ∃ client' : SchedulerClient α ε, s.clients[p]? = some client' ∧
        client'.result = some a)
    (hcollected : ∀ batch ∈ t.collected, batch ∈ s.collected ∨ batch ≠ [])
    (hemptied : t.worker = .exited → t.requests = []) : t.Delivers := by
  constructor
  case own =>
    intro p a hmem
    rcases hanswers p a hmem with hold | hnew
    · exact (h.own p a hold).mono hprocessed hclients
    · exact hnew
  case received =>
    intro p client a hclient hresult
    obtain ⟨client', hclient', hresult'⟩ := hresults p client a hclient hresult
    exact (h.received p client' a hclient' hresult').mono hprocessed hclients
  case once =>
    have hdistinct := ht.distinct
    rw [promises, List.append_assoc] at hdistinct
    exact hdistinct.of_append_left
  case served =>
    intro batch hmem
    rcases hcollected batch hmem with hold | hne
    · exact h.served batch hold
    · exact hne
  case emptied => exact hemptied

/-- Nothing but the queue, the worker and the members has changed. -/
theorem Delivers.quiet {s t : LlamaScheduler α ε} (h : s.Delivers) (ht : t.Coherent)
    (hprocessed : s.processed ⊆ t.processed) (hclients : t.clients = s.clients)
    (hanswers : t.answers = s.answers) (hcollected : t.collected = s.collected)
    (hemptied : t.worker = .exited → t.requests = []) : t.Delivers := by
  refine h.mono ht hprocessed ?_ ?_ ?_ ?_ hemptied
  · rw [hclients]
  · intro p a hmem
    exact .inl (hanswers ▸ hmem)
  · intro p client a hclient hresult
    exact ⟨client, hclients ▸ hclient, hresult⟩
  · intro batch hmem
    exact .inl (hcollected ▸ hmem)

theorem delivers_submit {s : LlamaScheduler α ε} (hs : s.Coherent) (h : s.Delivers)
    (text : Bytes) : (s.submit text).Delivers ↔ s.worker ≠ .exited := by
  constructor
  · intro hd hexited
    exact absurd (hd.emptied hexited)
      (List.append_ne_nil_of_right_ne_nil _ (List.cons_ne_nil _ _))
  · intro hrunning
    refine h.mono (hs.submit text) (List.Subset.refl _) ?_ (fun p a hmem => .inl hmem) ?_
      (fun batch hmem => .inl hmem) (fun hexited => absurd hexited hrunning)
    · rw [LlamaScheduler.submit, List.map_append]
      exact List.prefix_append _ _
    · intro p client a hclient hresult
      rw [LlamaScheduler.submit, List.getElem?_append] at hclient
      split at hclient
      · exact ⟨client, hclient, hresult⟩
      · rw [List.getElem?_singleton] at hclient
        split at hclient
        · cases hclient
          cases hresult
        · cases hclient

/-- The future of a client has been moved from when the client comes to its `get`. -/
theorem not_delivers_get {s t : LlamaScheduler α ε} (hs : s.Coherent)
    (hstep : Step s (.get p) t) : ¬t.Delivers := by
  intro hd
  cases hstep with
  | get hclient hwaits hget =>
    rw [hs.moved _ (List.mem_of_getElem? hclient)] at hget
    cases hget
    have hlt := (List.getElem?_eq_some_iff.mp hclient).1
    exact not_right_noState _ p (hd.received p _ _ (List.getElem?_set_self hlt) rfl)

theorem delivers_collect {s : LlamaScheduler α ε} (hs : s.Coherent) (h : s.Delivers)
    (hidle : s.worker = .idle) (hwaiting : s.requests ≠ []) :
    s.collect.Delivers ↔ 0 < s.maxBatchSize := by
  rw [← takeBatch_ne_nil hwaiting]
  constructor
  · intro hd
    exact hd.served _ List.mem_concat_self
  · intro hne
    refine h.mono (hs.collect hidle) (List.Subset.refl _) List.prefix_rfl
      (fun p a hmem => .inl hmem) (fun p client a hclient hresult => ⟨client, hclient, hresult⟩)
      ?_ ?_
    · intro batch hmem
      rcases List.mem_append.mp hmem with hold | hnew
      · exact .inl hold
      · rw [List.mem_singleton.mp hnew]
        exact .inr hne
    · intro hexited
      simp only [LlamaScheduler.collect, if_neg hne] at hexited
      cases hexited

/-- An embedding that is there is the one `process_batch` returned for the text. -/
theorem due_of_ne_nil {outcome : Except ε (List (List α))}
    (hne : (embeddingsOf batch outcome).getD i [] ≠ []) :
    Due outcome i (answerOf ((embeddingsOf batch outcome).getD i []) none) := by
  rw [answerOf, if_pos hne]
  cases outcome with
  | ok embeddings =>
    rw [embeddingsOf] at hne ⊢
    rw [List.getD_eq_getElem?_getD] at hne ⊢
    cases hat : embeddings[i]? with
    | none =>
      rw [hat] at hne
      exact absurd rfl hne
    | some v => exact ⟨v, hat, rfl⟩
  | error e =>
    rw [embeddingsOf, List.getD_eq_getElem?_getD, List.getElem?_replicate] at hne
    split at hne
    · exact absurd rfl hne
    · exact absurd rfl hne

theorem delivers_answer {s : LlamaScheduler α ε} (hs : s.Coherent) (h : s.Delivers)
    (hworker : s.worker = .answering batch embeddings i) (hrequest : batch[i]? = some request) :
    (s.answer batch embeddings i request).Delivers ↔ embeddings.getD i [] ≠ [] := by
  constructor
  · intro hd hnil
    have hright := hd.own _ _ List.mem_concat_self
    rw [hnil, answerOf, if_neg (fun hne => hne rfl)] at hright
    exact not_right_runtimeError _ _ _ hright
  · intro hne
    refine h.mono (hs.step (.answer hworker hrequest)) (List.Subset.refl _) List.prefix_rfl ?_
      (fun p client a hclient hresult => ⟨client, hclient, hresult⟩)
      (fun batch hmem => .inl hmem) (fun hexited => by cases hexited)
    intro p a hmem
    rcases List.mem_append.mp hmem with hold | hnew
    · exact .inl hold
    · cases List.mem_singleton.mp hnew
      obtain ⟨outcome, hprocessed, rfl⟩ := hs.answering batch embeddings i hworker
      have hheld : request ∈ s.worker.unanswered := by
        rw [hworker]
        have hat : (batch.drop i)[0]? = some request := by
          rw [List.getElem?_drop, Nat.add_zero, hrequest]
        exact List.mem_of_getElem? hat
      obtain ⟨client, hclient, htext⟩ := hs.held request hheld
      exact .inr ⟨batch, outcome, i, request, client, hprocessed, hrequest, rfl, hclient, htext,
        due_of_ne_nil hne⟩

theorem delivers_exit {s : LlamaScheduler α ε} (hs : s.Coherent) (h : s.Delivers)
    (hidle : s.worker = .idle) (hstop : s.stop = true) :
    ({ s with worker := .exited } : LlamaScheduler α ε).Delivers ↔ s.requests = [] := by
  constructor
  · intro hd
    exact hd.emptied rfl
  · intro hempty
    exact h.quiet (hs.step (.exit hidle hstop)) (List.Subset.refl _) rfl rfl rfl fun _ => hempty

theorem Delivers.step_iff {s t : LlamaScheduler α ε} (hs : s.Coherent) (h : s.Delivers)
    (hstep : Step s act t) : t.Delivers ↔ s.Meets act := by
  have hcoherent : t.Coherent := hs.step hstep
  cases hstep with
  | submit => exact delivers_submit hs h _
  | get hclient hwaits hget =>
    exact iff_of_false (not_delivers_get hs (.get hclient hwaits hget)) not_false
  | setMaxBatchSize =>
    exact iff_of_true (h.quiet hcoherent (List.Subset.refl _) rfl rfl rfl h.emptied) trivial
  | stop =>
    exact iff_of_true (h.quiet hcoherent (List.Subset.refl _) rfl rfl rfl h.emptied) trivial
  | collect hidle hstop hwaiting => exact delivers_collect hs h hidle hwaiting
  | process hworker =>
    refine iff_of_true (h.quiet hcoherent (List.subset_append_left _ _) rfl rfl rfl ?_) trivial
    intro hexited
    cases hexited
  | answer hworker hrequest =>
    rw [delivers_answer hs h hworker hrequest, Meets]
    constructor
    · intro hne batch embeddings i hsame
      rw [hworker] at hsame
      cases hsame
      exact hne
    · intro hall
      exact hall _ _ _ hworker
  | rest hworker hend =>
    refine iff_of_true (h.quiet hcoherent (List.Subset.refl _) rfl rfl rfl ?_) trivial
    intro hexited
    cases hexited
  | exit hidle hstop => exact delivers_exit hs h hidle hstop

-- ---------------------------------------------------------------------------
-- What a run delivers
-- ---------------------------------------------------------------------------

theorem delivers_new (maxBatchSize : Int) : (new α ε maxBatchSize).Delivers := by
  constructor
  case own => exact fun p a hmem => absurd hmem List.not_mem_nil
  case received =>
    intro p client a hclient
    cases hclient
  case once => exact List.nodup_nil
  case served => exact fun batch hmem => absurd hmem List.not_mem_nil
  case emptied => exact fun _ => rfl

/-- No promise is set twice, whatever happens. -/
theorem answered_once {maxBatchSize : Int} {s : LlamaScheduler α ε}
    (hrun : Run Step (new α ε maxBatchSize) acts s) :
    (s.answers.map (·.1)).Nodup := by
  have hs : s.Coherent := hrun.invariant (coherent_new maxBatchSize) fun t act u ht hstep =>
    ht.step hstep
  have hdistinct := hs.distinct
  rw [promises, List.append_assoc] at hdistinct
  exact hdistinct.of_append_left

/-- A run delivers in every state it passes exactly when each of its steps meets what is
asked of it: no client comes to its `get`, the worker is let take something, every text has
an embedding, and the queue is empty when the worker leaves and ever after. -/
theorem delivers_always_iff (maxBatchSize : Int) (acts : List (Act α ε)) :
    Always Step (new α ε maxBatchSize) acts Delivers ↔
      EveryStep Step (new α ε maxBatchSize) acts Meets :=
  always_iff_everyStep_of_invariant (coherent_new maxBatchSize)
    (fun _ _ _ hs hstep => hs.step hstep) (delivers_new maxBatchSize)
    fun _ _ _ hs h hstep => h.step_iff hs hstep

/-- The batch of one client's text has been answered. -/
def answeredOne : LlamaScheduler Nat String :=
  { new Nat String 32 with
    clients := [⟨[104], none, none⟩]
    collected := [[⟨0, some 0, [104]⟩]]
    processed := [([⟨0, some 0, [104]⟩], .ok [[7]])]
    answers := [(0, .ok [7])] }

/-- The answer is right, and the client is told that it has no future. -/
theorem answer_out_of_reach :
    ∃ s, Run Step (new Nat String 32) [.submit [104], .collect, .process (.ok [[7]]), .answer,
        .rest, .get 0] s ∧
      s.Right 0 (.ok [7]) ∧ s.answers = [(0, .ok [7])] ∧
        s.clients.map (·.result) = [some (.error .noState)] ∧ ¬s.Delivers := by
  have hcollect : Run Step (new Nat String 32) [.submit [104], .collect]
      ((new Nat String 32).submit [104]).collect :=
    (Run.start.next .submit).next (.collect rfl rfl (List.cons_ne_nil _ _))
  have hprocess : Run Step (new Nat String 32) [.submit [104], .collect, .process (.ok [[7]])]
      (((new Nat String 32).submit [104]).collect.process [⟨0, some 0, [104]⟩] (.ok [[7]])) :=
    hcollect.next (.process rfl)
  have hanswer : Run Step (new Nat String 32)
      [.submit [104], .collect, .process (.ok [[7]]), .answer]
      ((((new Nat String 32).submit [104]).collect.process [⟨0, some 0, [104]⟩] (.ok [[7]])).answer
        [⟨0, some 0, [104]⟩] [[7]] 0 ⟨0, some 0, [104]⟩) :=
    hprocess.next (.answer rfl rfl)
  have hrest : Run Step (new Nat String 32)
      [.submit [104], .collect, .process (.ok [[7]]), .answer, .rest] answeredOne :=
    hanswer.next (.rest rfl rfl)
  have hget : Step answeredOne (.get 0)
      (answeredOne.receive 0 ⟨[104], none, none⟩ (.error .noState)) := .get rfl rfl rfl
  refine ⟨_, hrest.next hget, ?_, rfl, rfl, ?_⟩
  · exact ⟨_, _, 0, _, _, List.mem_singleton_self _, rfl, rfl, rfl, rfl, [7], rfl, rfl⟩
  · intro hd
    exact not_right_noState _ 0 (hd.received 0 _ _ rfl rfl)

end LlamaScheduler

end LibEmbedding
