import LibEmbedding.Types

/-!
# The batching scheduler

`LlamaScheduler`: clients put requests into a queue, a worker takes them out in batches,
hands their texts to `process_batch` and sets the promises. The steps are what happens
between two acquisitions of the lock, and what the worker does without it.
-/

namespace LibEmbedding

/-- What a future rethrows. `thrown` is an exception of `process_batch`. -/
inductive FutureError (ε : Type)
  | thrown (e : ε)
  | runtimeError (what : String)
  | noState
  deriving DecidableEq

/-- What a promise is set to, and what `get` on a future gives. -/
abbrev Answer (α ε : Type) := Except (FutureError ε) (List α)

/-- `promise` is the state that a promise shares with its future. A `future` that has been
moved from has none. -/
structure QueuedRequest where
  promise : Nat
  future : Option Nat
  text : Bytes
  deriving DecidableEq

/-- A thread inside `submit`, by its locals. Its promise is its place among the clients. -/
structure SchedulerClient (α ε : Type) where
  text : Bytes
  future : Option Nat
  result : Option (Answer α ε)
  deriving DecidableEq

/-- Where the worker is. `answering` is the loop over the batch, before its round `i`. -/
inductive SchedulerWorker (α : Type)
  | idle
  | processing (batch : List QueuedRequest)
  | answering (batch : List QueuedRequest) (embeddings : List (List α)) (i : Nat)
  | exited
  deriving DecidableEq

/-- The members, the threads that use them, and a record of what they have done: the batches
the worker has collected, what came of those it has processed, and the promises it has set. -/
structure LlamaScheduler (α ε : Type) where
  maxBatchSize : Int
  stop : Bool
  requests : List QueuedRequest
  worker : SchedulerWorker α
  clients : List (SchedulerClient α ε)
  collected : List (List QueuedRequest)
  processed : List (List QueuedRequest × Except ε (List (List α)))
  answers : List (Nat × Answer α ε)
  deriving DecidableEq

namespace LlamaScheduler

variable {α ε : Type}

/-- The constructor. -/
def new (α ε : Type) (maxBatchSize : Int) : LlamaScheduler α ε :=
  ⟨maxBatchSize, false, [], .idle, [], [], [], []⟩

/-- `submit` up to its `f.get()`. The future goes into the queue with the promise, so the
local that `get` is called on is left without a state. -/
def submit (s : LlamaScheduler α ε) (text : Bytes) : LlamaScheduler α ε :=
  let p := s.clients.length
  { s with
    requests := s.requests ++ [⟨p, some p, text⟩]
    clients := s.clients ++ [⟨text, none, none⟩] }

/-- `f.get()`, which waits as long as there is nothing to give. -/
def get (s : LlamaScheduler α ε) : Option Nat → Option (Answer α ε)
  | none => some (.error .noState)
  | some p => s.answers.lookup p

def receive (s : LlamaScheduler α ε) (p : Nat) (client : SchedulerClient α ε)
    (result : Answer α ε) : LlamaScheduler α ε :=
  { s with clients := s.clients.set p { client with result := some result } }

/-- The loop of the worker that fills a batch. -/
def takeBatch (maxBatchSize : Int) :
    List QueuedRequest → List QueuedRequest → List QueuedRequest × List QueuedRequest
  | batch, [] => (batch, [])
  | batch, request :: requests =>
    if toInt32 batch.length < maxBatchSize then
      takeBatch maxBatchSize (batch ++ [request]) requests
    else (batch, request :: requests)

/-- The worker under the lock. An empty batch sends it back to the head of its loop. -/
def collect (s : LlamaScheduler α ε) : LlamaScheduler α ε :=
  let (batch, requests) := takeBatch s.maxBatchSize [] s.requests
  { s with
    requests
    worker := if batch = [] then .idle else .processing batch
    collected := s.collected ++ [batch] }

/-- The embeddings after the `try` block. -/
def embeddingsOf (batch : List QueuedRequest) : Except ε (List (List α)) → List (List α)
  | .ok embeddings => embeddings
  | .error _ => List.replicate batch.length []

def process (s : LlamaScheduler α ε) (batch : List QueuedRequest)
    (outcome : Except ε (List (List α))) : LlamaScheduler α ε :=
  { s with
    worker := .answering batch (embeddingsOf batch outcome) 0
    processed := s.processed ++ [(batch, outcome)] }

/-- What the loop sets a promise to. `current` is `std::current_exception()`. -/
def answerOf (embedding : List α) (current : Option ε) : Answer α ε :=
  if embedding ≠ [] then .ok embedding
  else match current with
    | some e => .error (.thrown e)
    | none => .error (.runtimeError "Empty embedding")

/-- A round of that loop. It is outside the handler: no exception is current. -/
def answer (s : LlamaScheduler α ε) (batch : List QueuedRequest) (embeddings : List (List α))
    (i : Nat) (request : QueuedRequest) : LlamaScheduler α ε :=
  { s with
    worker := .answering batch embeddings (i + 1)
    answers := s.answers ++ [(request.promise, answerOf (embeddings.getD i []) none)] }

/-- What clients, the owner and the worker do. `process` and what comes of it are the
callback's. -/
inductive Act (α ε : Type)
  | submit (text : Bytes)
  | get (p : Nat)
  | setMaxBatchSize (n : Int)
  | stop
  | collect
  | process (outcome : Except ε (List (List α)))
  | answer
  | rest
  | exit

inductive Step : LlamaScheduler α ε → Act α ε → LlamaScheduler α ε → Prop
  | submit : Step s (.submit text) (s.submit text)
  | get : s.clients[p]? = some client → client.result = none → s.get client.future = some result →
    Step s (.get p) (s.receive p client result)
  | setMaxBatchSize : Step s (.setMaxBatchSize n) { s with maxBatchSize := n }
  | stop : Step s .stop { s with stop := true }
  | collect : s.worker = .idle → s.stop = false → s.requests ≠ [] → Step s .collect s.collect
  | process {s batch outcome} : s.worker = .processing batch →
    Step s (.process outcome) (s.process batch outcome)
  | answer {s batch embeddings i request} : s.worker = .answering batch embeddings i →
    batch[i]? = some request →
    Step s .answer (s.answer batch embeddings i request)
  | rest {s batch embeddings i} : s.worker = .answering batch embeddings i → batch[i]? = none →
    Step s .rest { s with worker := .idle }
  | exit : s.worker = .idle → s.stop = true → Step s .exit { s with worker := .exited }

end LlamaScheduler

end LibEmbedding
