import LibEmbedding.EmbeddingPoolParts

/-!
# The embedding pool as a stream

`EmbeddingPool::embed_stream`: one thread for each part, and a lock under which a thread
stores its vectors and hands out those whose turn has come.
-/

namespace LibEmbedding

open Foundation

/-- The variables of a call. `next` is the main thread's `w`, `threads` are those that have
not stored their part yet, `delivered` is what the callback has seen. -/
structure Stream (α : Type) where
  per : Int
  next : Nat
  threads : List (Nat × BatchRange)
  partialResults : List (List (List α))
  done : List Bool
  nextToYield : Nat
  delivered : List (List α)
  returned : Bool
  deriving DecidableEq

/-- Who takes the next step: the main thread in its loop, the thread of a worker, or the
main thread once all threads have been joined. -/
inductive StreamAct where
  | round
  | finish (w : Nat)
  | join

/-- The arguments of a call, and what its chunks meet. -/
structure StreamCall (α : Type) where
  pool : EmbeddingPool α
  env : Nat → Nat → ChunkEnv α
  texts : List Bytes
  batchSize : Int

namespace Stream

variable {α : Type}

/-- The loop that hands out the parts whose turn has come. -/
def flush (nw : Nat) : Nat → Stream α → Stream α
  | 0, s => s
  | fuel + 1, s =>
    if s.nextToYield < nw ∧ s.done.getD s.nextToYield false then
      flush nw fuel { s with
        delivered := s.delivered ++ s.partialResults.getD s.nextToYield []
        nextToYield := s.nextToYield + 1 }
    else s

end Stream

namespace StreamCall

variable {α : Type} [Inhabited α]

def total (c : StreamCall α) : Int := toInt32 c.texts.length

def numWorkers (c : StreamCall α) : Nat := c.pool.workers.length

def start (c : StreamCall α) : Checked (Stream α) :=
  if c.texts = [] then .ok ⟨0, c.numWorkers, [], [], [], 0, [], true⟩
  else do
    let per ← perWorker c.total c.numWorkers
    return ⟨per, 0, [], List.replicate c.numWorkers [], List.replicate c.numWorkers false, 0, [],
      false⟩

/-- A round of the main thread: an empty part is done, any other gets a thread. -/
def round (c : StreamCall α) (s : Stream α) : Checked (Stream α) := do
  let part ← partBounds c.total s.per s.next
  if part.stop ≤ part.start then
    return { s with done := s.done.set s.next true, next := s.next + 1 }
  else return { s with threads := s.threads ++ [(s.next, part)], next := s.next + 1 }

/-- A worker embeds its part and takes the lock. -/
def finish (c : StreamCall α) (s : Stream α) (w : Nat) (part : BatchRange) :
    Checked (Stream α) := do
  let worker ← get c.pool.workers w
  let (subset, _) ← worker.embedSubset (c.env w) c.texts part.start part.stop
    (c.pool.batchSizeOf c.batchSize)
  return Stream.flush c.numWorkers c.numWorkers { s with
    threads := s.threads.filter (·.1 ≠ w)
    partialResults := s.partialResults.set w subset
    done := s.done.set w true }

/-- The steps of a call, in any order the threads happen to take. -/
inductive Step (c : StreamCall α) : Checked (Stream α) → StreamAct → Checked (Stream α) → Prop
  | round : s.next < c.numWorkers → Step c (.ok s) .round (c.round s)
  | finish : (w, part) ∈ s.threads → Step c (.ok s) (.finish w) (c.finish s w part)
  | join : s.next = c.numWorkers → s.threads = [] → s.returned = false →
    Step c (.ok s) .join (.ok { s with returned := true })

/-- The callback has seen the vectors of the first texts in order, and those of all texts
when the call has returned. -/
def Delivers (c : StreamCall α) (vec : Bytes → List α) (x : Checked (Stream α)) : Prop :=
  ∃ s, x = .ok s ∧ (s.delivered <+: c.texts.map fun text => vec (cstr text)) ∧
    (s.returned → s.delivered = c.texts.map fun text => vec (cstr text))

end StreamCall

-- ---------------------------------------------------------------------------
-- The parts in their turn
-- ---------------------------------------------------------------------------

namespace Stream

variable {α : Type}

/-- What has been delivered is the parts before the one whose turn it is. -/
structure Yielded (nw : Nat) (s : Stream α) : Prop where
  delivered : s.delivered = (List.range s.nextToYield).flatMap fun w =>
    s.partialResults.getD w []
  earlier : ∀ w < s.nextToYield, s.done.getD w false
  le : s.nextToYield ≤ nw

/-- The loop goes on to the first part that is not done. -/
theorem flush_yielded {s : Stream α} (h : s.Yielded nw) (hfuel : nw - s.nextToYield ≤ fuel) :
    ∃ delivered nextToYield, flush nw fuel s = { s with delivered, nextToYield } ∧
      Yielded nw { s with delivered, nextToYield } ∧
        (nextToYield < nw → s.done.getD nextToYield false = false) := by
  induction fuel generalizing s with
  | zero =>
    have hend : nw ≤ s.nextToYield := Nat.le_of_sub_eq_zero (Nat.le_zero.mp hfuel)
    exact ⟨s.delivered, s.nextToYield, rfl, h, fun hlt => absurd hlt (not_lt.mpr hend)⟩
  | succ fuel ih =>
    unfold flush
    by_cases hturn : s.nextToYield < nw ∧ s.done.getD s.nextToYield false
    · rw [if_pos hturn]
      have hnext : Yielded nw { s with
          delivered := s.delivered ++ s.partialResults.getD s.nextToYield []
          nextToYield := s.nextToYield + 1 } := by
        refine ⟨?_, fun w hw => ?_, hturn.1⟩
        · rw [List.range_succ, List.flatMap_append, List.flatMap_singleton, h.delivered]
        · rcases Nat.lt_succ_iff_lt_or_eq.mp hw with hlt | rfl
          · exact h.earlier w hlt
          · exact hturn.2
      obtain ⟨delivered, nextToYield, hflush, hyielded, hstop⟩ := ih hnext (by dsimp only; omega)
      exact ⟨delivered, nextToYield, hflush, hyielded, hstop⟩
    · rw [if_neg hturn]
      refine ⟨s.delivered, s.nextToYield, rfl, h, fun hlt => ?_⟩
      exact Bool.eq_false_iff.mpr fun hdone => hturn ⟨hlt, hdone⟩

/-- The loop changes nothing but what it hands out. -/
theorem flush_frame (s : Stream α) (nw fuel : Nat) :
    (flush nw fuel s).next = s.next ∧ (flush nw fuel s).threads = s.threads ∧
      (flush nw fuel s).returned = s.returned := by
  induction fuel generalizing s with
  | zero => exact ⟨rfl, rfl, rfl⟩
  | succ fuel ih =>
    unfold flush
    split
    · exact ih _
    · exact ⟨rfl, rfl, rfl⟩

end Stream

namespace StreamCall

variable {α : Type} {c : StreamCall α} {vec : Bytes → List α} {T per : Nat}

/-- The batch size of the call. -/
def batch (c : StreamCall α) : Nat := (c.pool.batchSizeOf c.batchSize).toNat

theorem batch_pos (c : StreamCall α) : 0 < c.batch := by
  have hpos := c.pool.batchSizeOf_pos c.batchSize
  rw [batch]
  omega

theorem batch_cast (c : StreamCall α) : (c.batch : Int) = c.pool.batchSizeOf c.batchSize :=
  Int.toNat_of_nonneg (c.pool.batchSizeOf_pos c.batchSize).le

/-- What worker `w` yields, of the first `T` texts in parts of `per`. -/
def rows (c : StreamCall α) (vec : Bytes → List α) (T per w : Nat) : List (List α) :=
  (slice per (c.texts.take T) w).map fun text => vec (cstr text)

/-- The bounds of the part of worker `w`. -/
def bounds (T per w : Nat) : BatchRange :=
  ⟨((w * per : Nat) : Int), ((min ((w + 1) * per) T : Nat) : Int)⟩

/-- The state of a call between two steps. A part whose round has come is done or has a
thread; only an empty part can be done while its turn has come. -/
structure InOrder (c : StreamCall α) (vec : Bytes → List α) (T per : Nat) (s : Stream α) : Prop where
  share : s.per = per
  lengthDone : s.done.length = c.numWorkers
  lengthPartial : s.partialResults.length = c.numWorkers
  le : s.next ≤ c.numWorkers
  later : ∀ w, s.next ≤ w → s.done.getD w false = false
  threads : ∀ w part, (w, part) ∈ s.threads → w < s.next ∧ part = bounds T per w ∧ w * per < T ∧
    s.done.getD w false = false
  running : ∀ w < s.next, s.done.getD w false = false → ∃ part, (w, part) ∈ s.threads
  bounded : ∀ w < s.next, (((w + 1) * per : Nat) : Int) ≤ intMax
  stored : ∀ w, s.done.getD w false → s.partialResults.getD w [] = c.rows vec T per w
  fits : ∀ w, s.done.getD w false → StepsFit (w * per) (min ((w + 1) * per) T) c.batch
  fresh : ∀ w, s.done.getD w false = false → s.partialResults.getD w [] = []
  yielded : s.Yielded c.numWorkers
  turn : s.nextToYield < c.numWorkers → s.done.getD s.nextToYield false → T ≤ s.nextToYield * per
  returned : s.returned → s.next = c.numWorkers ∧ s.threads = []

theorem rows_of_le (h : T ≤ w * per) : c.rows vec T per w = [] := by
  rw [rows, slice, List.drop_of_length_le, List.take_nil, List.map_nil]
  exact (List.length_take_le ..).trans h

theorem getD_set {l : List β} (hw : w < l.length) (v : Nat) (x d : β) :
    (l.set w x).getD v d = if v = w then x else l.getD v d := by
  rw [List.getD_eq_getElem?_getD, List.getElem?_set]
  split
  · subst_vars
    simp
  · rename_i hne
    rw [if_neg (Ne.symm hne), List.getD_eq_getElem?_getD]

theorem InOrder.notReturned {s : Stream α} (h : InOrder c vec T per s)
    (hnext : s.next < c.numWorkers) : s.returned = false :=
  Bool.eq_false_iff.mpr fun hreturned => absurd (h.returned hreturned).1 hnext.ne

/-- A part that is empty is done when its round comes. -/
theorem InOrder.skip {s : Stream α} (h : InOrder c vec T per s) (hnext : s.next < c.numWorkers)
    (hbound : (((s.next + 1) * per : Nat) : Int) ≤ intMax) (hempty : T ≤ s.next * per) :
    InOrder c vec T per { s with done := s.done.set s.next true, next := s.next + 1 } := by
  have hfree : s.done.getD s.next false = false := h.later s.next le_rfl
  have hinside : s.next < s.done.length := by rwa [h.lengthDone]
  have hdone (w : Nat) : (s.done.set s.next true).getD w false =
      if w = s.next then true else s.done.getD w false := getD_set hinside w true false
  constructor
  case share => exact h.share
  case lengthDone => rw [List.length_set, h.lengthDone]
  case lengthPartial => exact h.lengthPartial
  case le => exact hnext
  case later =>
    intro w hw
    rw [hdone, if_neg (Nat.ne_of_gt hw)]
    exact h.later w (Nat.le_of_succ_le hw)
  case threads =>
    intro w part hmem
    obtain ⟨hlt, hpart, hnonempty, hrunning⟩ := h.threads w part hmem
    refine ⟨Nat.lt_succ_of_lt hlt, hpart, hnonempty, ?_⟩
    rw [hdone, if_neg hlt.ne]
    exact hrunning
  case running =>
    intro w hw hrunning
    rw [hdone] at hrunning
    split at hrunning
    · cases hrunning
    · exact h.running w (by dsimp only at hw; omega) hrunning
  case bounded =>
    intro w hw
    rcases Nat.lt_succ_iff_lt_or_eq.mp hw with hlt | rfl
    · exact h.bounded w hlt
    · exact hbound
  case stored =>
    intro w hw
    rw [hdone] at hw
    split at hw
    · rename_i heq
      rw [heq, rows_of_le hempty]
      exact h.fresh s.next hfree
    · exact h.stored w hw
  case fits =>
    intro w hw
    rw [hdone] at hw
    split at hw
    · rename_i heq
      rw [heq]
      exact stepsFit_of_le ((min_le_right ..).trans hempty)
    · exact h.fits w hw
  case fresh =>
    intro w hw
    rw [hdone] at hw
    split at hw
    · cases hw
    · exact h.fresh w hw
  case yielded =>
    refine ⟨h.yielded.delivered, fun w hw => ?_, h.yielded.le⟩
    rw [hdone]
    split
    · rfl
    · exact h.yielded.earlier w hw
  case turn =>
    intro hturn hw
    rw [hdone] at hw
    split at hw
    · rename_i heq
      rw [heq]
      exact hempty
    · exact h.turn hturn hw
  case returned =>
    intro hreturned
    rw [h.notReturned hnext] at hreturned
    cases hreturned

/-- Any other part gets a thread. -/
theorem InOrder.launch {s : Stream α} (h : InOrder c vec T per s) (hnext : s.next < c.numWorkers)
    (hbound : (((s.next + 1) * per : Nat) : Int) ≤ intMax) (hnonempty : s.next * per < T) :
    InOrder c vec T per
      { s with threads := s.threads ++ [(s.next, bounds T per s.next)], next := s.next + 1 } := by
  have hfree : s.done.getD s.next false = false := h.later s.next le_rfl
  constructor
  case share => exact h.share
  case lengthDone => exact h.lengthDone
  case lengthPartial => exact h.lengthPartial
  case le => exact hnext
  case later => exact fun w hw => h.later w (Nat.le_of_succ_le hw)
  case threads =>
    intro w part hmem
    rcases List.mem_append.mp hmem with hold | hnew
    · obtain ⟨hlt, hthread⟩ := h.threads w part hold
      exact ⟨Nat.lt_succ_of_lt hlt, hthread⟩
    · cases List.mem_singleton.mp hnew
      exact ⟨Nat.lt_succ_self _, rfl, hnonempty, hfree⟩
  case running =>
    intro w hw hrunning
    rcases Nat.lt_succ_iff_lt_or_eq.mp hw with hlt | rfl
    · obtain ⟨part, hmem⟩ := h.running w hlt hrunning
      exact ⟨part, List.mem_append_left _ hmem⟩
    · exact ⟨_, List.mem_append_right _ (List.mem_singleton_self _)⟩
  case bounded =>
    intro w hw
    rcases Nat.lt_succ_iff_lt_or_eq.mp hw with hlt | rfl
    · exact h.bounded w hlt
    · exact hbound
  case stored => exact h.stored
  case fits => exact h.fits
  case fresh => exact h.fresh
  case yielded => exact ⟨h.yielded.delivered, h.yielded.earlier, h.yielded.le⟩
  case turn => exact h.turn
  case returned =>
    intro hreturned
    rw [h.notReturned hnext] at hreturned
    cases hreturned

/-- A worker stores its part and hands out what can be handed out. -/
theorem InOrder.store {s : Stream α} (h : InOrder c vec T per s) (hmem : (w, part) ∈ s.threads)
    (hsteps : StepsFit (w * per) (min ((w + 1) * per) T) c.batch) :
    InOrder c vec T per (Stream.flush c.numWorkers c.numWorkers { s with
      threads := s.threads.filter (·.1 ≠ w)
      partialResults := s.partialResults.set w (c.rows vec T per w)
      done := s.done.set w true }) := by
  obtain ⟨hlt, -, -, hrunning⟩ := h.threads w part hmem
  have hinside : w < s.done.length := by
    rw [h.lengthDone]
    exact lt_of_lt_of_le hlt h.le
  have hinside' : w < s.partialResults.length := by rwa [h.lengthPartial, ← h.lengthDone]
  have hdone (v : Nat) : (s.done.set w true).getD v false =
      if v = w then true else s.done.getD v false := getD_set hinside v true false
  have hstored (v : Nat) : (s.partialResults.set w (c.rows vec T per w)).getD v [] =
      if v = w then c.rows vec T per w else s.partialResults.getD v [] :=
    getD_set hinside' v _ []
  have hahead : ∀ v < s.nextToYield, v ≠ w := by
    rintro v hv rfl
    rw [h.yielded.earlier v hv] at hrunning
    cases hrunning
  have hyielded : Stream.Yielded c.numWorkers { s with
      threads := s.threads.filter (·.1 ≠ w)
      partialResults := s.partialResults.set w (c.rows vec T per w)
      done := s.done.set w true } := by
    refine ⟨?_, fun v hv => ?_, h.yielded.le⟩
    · rw [h.yielded.delivered]
      refine List.flatMap_congr fun v hv => ?_
      rw [hstored, if_neg (hahead v (List.mem_range.mp hv))]
    · rw [hdone, if_neg (hahead v hv)]
      exact h.yielded.earlier v hv
  obtain ⟨delivered, nextToYield, hflush, hyielded', hstop⟩ :=
    Stream.flush_yielded hyielded (Nat.sub_le ..)
  rw [hflush]
  constructor
  case share => exact h.share
  case lengthDone => rw [List.length_set, h.lengthDone]
  case lengthPartial => rw [List.length_set, h.lengthPartial]
  case le => exact h.le
  case later =>
    intro v hv
    rw [hdone, if_neg (Nat.ne_of_gt (lt_of_lt_of_le hlt hv))]
    exact h.later v hv
  case threads =>
    intro v part' hmem'
    obtain ⟨hold, hne⟩ := List.mem_filter.mp hmem'
    obtain ⟨hlt', hpart, hnonempty, hrunning'⟩ := h.threads v part' hold
    refine ⟨hlt', hpart, hnonempty, ?_⟩
    rw [hdone, if_neg (of_decide_eq_true hne)]
    exact hrunning'
  case running =>
    intro v hv hrunning'
    rw [hdone] at hrunning'
    split at hrunning'
    · cases hrunning'
    · rename_i hne
      obtain ⟨part', hmem'⟩ := h.running v hv hrunning'
      exact ⟨part', List.mem_filter.mpr ⟨hmem', decide_eq_true hne⟩⟩
  case bounded => exact h.bounded
  case fits =>
    intro v hv
    rw [hdone] at hv
    split at hv
    · rename_i heq
      rw [heq]
      exact hsteps
    · exact h.fits v hv
  case stored =>
    intro v hv
    rw [hdone] at hv
    rw [hstored]
    split at hv
    · rename_i heq
      rw [if_pos heq, heq]
    · rename_i hne
      rw [if_neg hne]
      exact h.stored v hv
  case fresh =>
    intro v hv
    rw [hdone] at hv
    rw [hstored]
    split at hv
    · cases hv
    · rename_i hne
      rw [if_neg hne]
      exact h.fresh v hv
  case yielded => exact hyielded'
  case turn =>
    intro hturn hv
    rw [hstop hturn] at hv
    cases hv
  case returned =>
    intro hreturned
    rw [(h.returned hreturned).2] at hmem
    cases hmem

theorem InOrder.delivered_eq {s : Stream α} (h : InOrder c vec T per s) :
    s.delivered = ((c.texts.take T).take (s.nextToYield * per)).map fun text =>
      vec (cstr text) := by
  have hrows : ∀ w ∈ List.range s.nextToYield,
      s.partialResults.getD w [] = c.rows vec T per w := fun w hw =>
    h.stored w (h.yielded.earlier w (List.mem_range.mp hw))
  rw [h.yielded.delivered, List.flatMap_congr hrows, ← flatMap_slices, List.map_flatMap]
  rfl

theorem InOrder.prefix {s : Stream α} (h : InOrder c vec T per s) :
    s.delivered <+: c.texts.map fun text => vec (cstr text) := by
  rw [h.delivered_eq]
  exact ((List.take_prefix ..).trans (List.take_prefix ..)).map _

/-- When the call returns every part that is not empty has been handed out. -/
theorem InOrder.delivered_all {s : Stream α} (h : InOrder c vec T per s)
    (henough : T ≤ c.numWorkers * per) (hreturned : s.returned) :
    s.delivered = (c.texts.take T).map fun text => vec (cstr text) := by
  obtain ⟨hnext, hthreads⟩ := h.returned hreturned
  have hend : T ≤ s.nextToYield * per := by
    rcases Nat.lt_or_eq_of_le h.yielded.le with hlt | heq
    · refine h.turn hlt (Bool.not_eq_false _ ▸ fun hrunning => ?_)
      obtain ⟨part, hmem⟩ := h.running _ (hnext ▸ hlt) hrunning
      rw [hthreads] at hmem
      cases hmem
    · rwa [heq]
  rw [h.delivered_eq, List.take_of_length_le]
  exact (List.length_take_le ..).trans hend

-- ---------------------------------------------------------------------------
-- The steps
-- ---------------------------------------------------------------------------

variable [Inhabited α]

omit [Inhabited α] in
theorem InOrder.round {s t : Stream α} (h : InOrder c vec T per s)
    (hnext : s.next < c.numWorkers) (hper : 0 < per) (htotal : c.total = T)
    (hround : c.round s = .ok t) : InOrder c vec T per t := by
  have hsucc : (s.next + 1) * per = s.next * per + per := Nat.succ_mul ..
  simp only [StreamCall.round, htotal, h.share, bind_ok, partBounds_ok] at hround
  obtain ⟨_, ⟨hbound, rfl⟩, hround⟩ := hround
  dsimp only at hround
  rw [← h.share] at hround
  split at hround
  · cases hround
    exact h.skip hnext hbound (by omega)
  · cases hround
    exact h.launch hnext hbound (by omega)

/-- What a call is granted: workers that serve the vectors, and chunks that all succeed. -/
structure Granted (c : StreamCall α) (vec : Bytes → List α) (dim T : Nat) : Prop where
  serves : ∀ worker ∈ c.pool.workers, worker.ctx.Serves vec ∧ worker.ctx.dim = dim
  pure : ∀ w k, (c.env w k).backend.Pure dim vec
  answers : c.pool.Answers c.env (c.texts.take T) c.batch

/-- What finishing a thread comes to: it ends with its part stored, unless its loop
overflows. -/
theorem finish_iff {s : Stream α} (hgranted : c.Granted vec dim T) (hT : T ≤ c.texts.length)
    (hper : per = sliceCount c.numWorkers T) (hw : w < c.numWorkers) :
    c.finish s w (bounds T per w) = .ok t ↔
      StepsFit (w * per) (min ((w + 1) * per) T) c.batch ∧
        t = Stream.flush c.numWorkers c.numWorkers { s with
          threads := s.threads.filter (·.1 ≠ w)
          partialResults := s.partialResults.set w (c.rows vec T per w)
          done := s.done.set w true } := by
  obtain ⟨worker, hworker⟩ : ∃ worker, c.pool.workers[w]? = some worker :=
    ⟨_, List.getElem?_eq_getElem hw⟩
  obtain ⟨hserves, hdim⟩ := hgranted.serves worker (List.mem_of_getElem? hworker)
  have hpure : ∀ k, (c.env w k).backend.Pure worker.ctx.dim vec := by
    rw [hdim]
    exact hgranted.pure w
  have hmin : min ((w + 1) * per) T ≤ T := min_le_right ..
  have hrows : slice per (c.texts.take T) w =
      textPart c.texts (w * per) (min ((w + 1) * per) T) := by
    rw [slice_eq_textPart, List.length_take_of_le hT, textPart_take hmin]
  have hanswered := hgranted.answers w worker hworker
  rw [List.length_take_of_le hT, ← numWorkers, ← hper, hrows] at hanswered
  have hsubset (subset : List (List α)) : (∃ worker', worker.embedSubset (c.env w) c.texts
      ((w * per : Nat) : Int) ((min ((w + 1) * per) T : Nat) : Int) c.batch =
        .ok (subset, worker')) ↔ _ :=
    embedSubset_iff hserves hpure c.batch_pos (hmin.trans hT) hanswered
  unfold finish
  simp only [get_ok.mpr hworker, ok_bind, bounds, ← c.batch_cast, bind_ok, pure_ok]
  rw [rows, hrows]
  constructor
  · rintro ⟨⟨subset, worker'⟩, hembed, rfl⟩
    obtain ⟨hsteps, rfl⟩ := (hsubset subset).mp ⟨worker', hembed⟩
    exact ⟨hsteps, rfl⟩
  · rintro ⟨hsteps, rfl⟩
    obtain ⟨worker', hembed⟩ := (hsubset _).mpr ⟨hsteps, rfl⟩
    exact ⟨_, hembed, rfl⟩

variable {dim : Nat}

/-- Every step of a granted call keeps the order, as long as it is defined. -/
theorem InOrder.step {s t : Stream α} (h : InOrder c vec T per s) (hgranted : c.Granted vec dim T)
    (hT : T ≤ c.texts.length) (htotal : c.total = T) (hper : per = sliceCount c.numWorkers T)
    (hpos : 0 < per) (hstep : Step c (.ok s) act (.ok t)) : InOrder c vec T per t := by
  generalize hx : (.ok s : Checked (Stream α)) = x at hstep
  generalize hy : (.ok t : Checked (Stream α)) = y at hstep
  cases hstep with
  | round hnext =>
    cases hx
    exact h.round hnext hpos htotal hy.symm
  | finish hmem =>
    cases hx
    obtain ⟨hlt, rfl, -, -⟩ := h.threads _ _ hmem
    obtain ⟨hsteps, rfl⟩ :=
      (finish_iff hgranted hT hper (lt_of_lt_of_le hlt h.le)).mp hy.symm
    exact h.store hmem hsteps
  | join hnext hthreads hreturned =>
    cases hx
    cases hy
    exact { h with
      yielded := ⟨h.yielded.delivered, h.yielded.earlier, h.yielded.le⟩
      returned := fun _ => ⟨hnext, hthreads⟩ }

omit [Inhabited α] in
theorem inOrder_start {s : Stream α} (hne : c.texts ≠ []) (htotal : c.total = T)
    (hnw : 0 < c.numWorkers) (hstart : c.start = .ok s) :
    InOrder c vec T (sliceCount c.numWorkers T) s := by
  simp only [start, if_neg hne, htotal, bind_ok, perWorker_ok hnw] at hstart
  obtain ⟨_, ⟨-, rfl⟩, hstart⟩ := hstart
  cases hstart
  have hidle (w : Nat) : (List.replicate c.numWorkers false).getD w false = false := by
    rw [List.getD_eq_getElem?_getD, List.getElem?_replicate]
    split
    · rfl
    · rfl
  have hidle' {P : Prop} (w : Nat) (h : (List.replicate c.numWorkers false).getD w false) : P := by
    rw [hidle w] at h
    cases h
  constructor
  case share => rfl
  case lengthDone => exact List.length_replicate
  case lengthPartial => exact List.length_replicate
  case le => exact Nat.zero_le _
  case later => exact fun w _ => hidle w
  case threads => exact fun w part hmem => by cases hmem
  case running => exact fun w hw => absurd hw (Nat.not_lt_zero w)
  case bounded => exact fun w hw => absurd hw (Nat.not_lt_zero w)
  case stored => exact fun w hw => hidle' w hw
  case fits => exact fun w hw => hidle' w hw
  case fresh =>
    intro w _
    dsimp only
    rw [List.getD_eq_getElem?_getD, List.getElem?_replicate]
    split
    · rfl
    · rfl
  case yielded => exact ⟨rfl, fun w hw => absurd hw (Nat.not_lt_zero w), Nat.zero_le _⟩
  case turn => exact fun _ hw => hidle' _ hw
  case returned => exact fun hreturned => by cases hreturned

/-- Wherever a granted call gets to while it is defined, its parts are in order. -/
theorem inOrder_run (hne : c.texts ≠ []) (hgranted : c.Granted vec dim T)
    (hT : T ≤ c.texts.length) (htotal : c.total = T) (hpos : 0 < T)
    (hrun : Run (Step c) c.start acts x) (hx : x = .ok s) :
    InOrder c vec T (sliceCount c.numWorkers T) s := by
  have hnw : 0 < c.numWorkers := c.pool.workers_pos
  induction hrun generalizing s with
  | start => exact inOrder_start hne htotal hnw hx
  | @next _ y act z _ hstep ih =>
    subst hx
    cases y with
    | error fault => cases hstep
    | ok t => exact (ih rfl).step hgranted hT htotal rfl (sliceCount_pos hnw hpos) hstep

-- ---------------------------------------------------------------------------
-- Every call can be taken to its end
-- ---------------------------------------------------------------------------

omit [Inhabited α] in
theorem round_frame {s t : Stream α} (h : c.round s = .ok t) :
    t.next = s.next + 1 ∧ t.threads.length ≤ s.threads.length + 1 ∧ t.returned = s.returned := by
  simp only [StreamCall.round, bind_ok] at h
  obtain ⟨part, -, h⟩ := h
  split at h
  · cases h
    exact ⟨rfl, Nat.le_succ _, rfl⟩
  · cases h
    exact ⟨rfl, by simp, rfl⟩

theorem finish_frame {s t : Stream α} (h : c.finish s w part = .ok t) :
    t.next = s.next ∧ t.threads = s.threads.filter (·.1 ≠ w) ∧ t.returned = s.returned := by
  simp only [finish, bind_ok, pure_ok] at h
  obtain ⟨_, -, _, -, rfl⟩ := h
  exact Stream.flush_frame ..

theorem returned_of_reached (hok : ∀ acts x, Run (Step c) c.start acts x → ∃ s, x = .ok s)
    {s : Stream α} (hrun : Run (Step c) c.start acts (.ok s)) (hle : s.next ≤ c.numWorkers)
    (hleft : 2 * (c.numWorkers - s.next) + s.threads.length ≤ n) :
    ∃ acts t, Run (Step c) c.start acts (.ok t) ∧ t.returned := by
  induction n using Nat.strong_induction_on generalizing acts s with
  | _ n ih =>
    by_cases hreturned : s.returned
    · exact ⟨acts, s, hrun, hreturned⟩
    rcases Nat.lt_or_eq_of_le hle with hnext | hnext
    · have hrun' := hrun.next (Step.round hnext)
      obtain ⟨t, ht⟩ := hok _ _ hrun'
      obtain ⟨hnext', hthreads, -⟩ := round_frame ht
      rw [ht] at hrun'
      exact ih (2 * (c.numWorkers - t.next) + t.threads.length) (by omega) hrun' (by omega) le_rfl
    · cases hthreads : s.threads with
      | nil =>
        exact ⟨_, _, hrun.next (Step.join hnext hthreads (Bool.eq_false_iff.mpr hreturned)), rfl⟩
      | cons thread threads =>
        obtain ⟨w, part⟩ := thread
        have hmem : (w, part) ∈ s.threads := by
          rw [hthreads]
          exact List.mem_cons_self
        have hrun' := hrun.next (Step.finish hmem)
        obtain ⟨t, ht⟩ := hok _ _ hrun'
        obtain ⟨hnext', hthreads', -⟩ := finish_frame ht
        rw [ht] at hrun'
        have hfewer : t.threads.length < s.threads.length := by
          rw [hthreads']
          exact List.length_filter_lt_length_iff_exists.mpr ⟨(w, part), hmem, by simp⟩
        exact ih (2 * (c.numWorkers - t.next) + t.threads.length) (by omega) hrun' (by omega)
          le_rfl

/-- A call none of whose runs meets anything undefined has a run to its end. -/
theorem exists_returned (hok : ∀ acts x, Run (Step c) c.start acts x → ∃ s, x = .ok s) :
    ∃ acts t, Run (Step c) c.start acts (.ok t) ∧ t.returned := by
  obtain ⟨s, hs⟩ := hok [] _ .start
  have hrun : Run (Step c) c.start [] (.ok s) := by
    rw [← hs]
    exact .start
  have hle : s.next ≤ c.numWorkers := by
    unfold start at hs
    split at hs
    · cases hs
      exact le_rfl
    · simp only [bind_ok] at hs
      obtain ⟨_, -, hs⟩ := hs
      cases hs
      exact Nat.zero_le _
  exact returned_of_reached hok hrun hle le_rfl

-- ---------------------------------------------------------------------------
-- The order of delivery
-- ---------------------------------------------------------------------------

/-- No index of a streamed call on `n` texts overflows. Every part is looked at, the empty
ones too. -/
structure Fits (n nw b : Nat) : Prop where
  sum : ((n + nw : Nat) : Int) ≤ intMax
  bounds : ∀ w < nw, (((w + 1) * sliceCount nw n : Nat) : Int) ≤ intMax
  steps : ∀ w < nw, StepsFit (w * sliceCount nw n) (min ((w + 1) * sliceCount nw n) n) b

theorem perWorker_nonpositive {total per : Int} (htotal : total ≤ 0)
    (h : perWorker total (nw : Nat) = .ok per) : per ≤ 0 := by
  simp only [perWorker, bind_ok, addInt, subInt, narrow_ok, divInt_ok] at h
  obtain ⟨_, ⟨-, rfl⟩, _, ⟨-, rfl⟩, -, -, rfl⟩ := h
  rcases le_or_gt (total + nw - 1) 0 with hneg | hpos
  · have hnonneg := Int.tdiv_nonneg (neg_nonneg.mpr hneg) (Int.natCast_nonneg nw)
    rw [Int.neg_tdiv] at hnonneg
    exact neg_nonneg.mp hnonneg
  · exact (Int.tdiv_eq_zero_of_lt hpos.le (by omega)).le

/-- With no texts counted nothing is delivered. -/
theorem delivered_nonpositive {s : Stream α} (htotal : c.total ≤ 0) (hne : c.texts ≠ [])
    (hrun : Run (Step c) c.start acts x) (hx : x = .ok s) :
    s.per ≤ 0 ∧ s.threads = [] ∧ s.delivered = [] := by
  induction hrun generalizing s with
  | start =>
    simp only [start, if_neg hne, bind_ok] at hx
    obtain ⟨per, hper, hx⟩ := hx
    cases hx
    exact ⟨perWorker_nonpositive htotal hper, rfl, rfl⟩
  | next _ hstep ih =>
    cases hstep with
    | round hnext =>
      obtain ⟨hper, hthreads, hdelivered⟩ := ih rfl
      simp only [StreamCall.round, partBounds, mulInt, addInt, bind_ok, narrow_ok, pure_ok] at hx
      obtain ⟨_, ⟨_, ⟨-, rfl⟩, _, ⟨-, rfl⟩, rfl⟩, hx⟩ := hx
      dsimp only at hx
      rw [if_pos (by omega)] at hx
      cases hx
      exact ⟨hper, hthreads, hdelivered⟩
    | finish hmem =>
      obtain ⟨-, hthreads, -⟩ := ih rfl
      rw [hthreads] at hmem
      cases hmem
    | join hnext hthreads hreturned =>
      cases hx
      have hbefore := ih rfl
      exact hbefore

/-- A call without texts takes no step. -/
theorem start_only (hempty : c.texts = []) (hrun : Run (Step c) c.start acts x) : x = c.start := by
  refine hrun.invariant (I := (· = c.start)) rfl ?_
  rintro y act z rfl hstep
  generalize hx : c.start = x at hstep
  rw [start, if_pos hempty] at hx
  cases hstep with
  | round hnext =>
    cases hx
    exact absurd hnext (lt_irrefl _)
  | finish hmem =>
    cases hx
    cases hmem
  | join hnext hthreads hreturned =>
    cases hx
    cases hreturned

omit [Inhabited α] in
theorem total_of_fits (hfits : Fits c.texts.length nw b) : c.total = c.texts.length := by
  have hsum := hfits.sum
  rw [intMax] at hsum
  exact toInt32_eq (by omega)

/-- Where no index overflows, every run is defined and in order. -/
theorem inOrder_of_fits (hne : c.texts ≠ []) (hgranted : c.Granted vec dim c.texts.length)
    (hfits : Fits c.texts.length c.numWorkers c.batch) (hrun : Run (Step c) c.start acts x) :
    ∃ s, x = .ok s ∧ InOrder c vec c.texts.length (sliceCount c.numWorkers c.texts.length) s := by
  have hnw : 0 < c.numWorkers := c.pool.workers_pos
  have hn : 0 < c.texts.length := List.length_pos_iff.mpr hne
  have hsum := hfits.sum
  have htotal := total_of_fits hfits
  refine hrun.invariant (I := fun x => ∃ s, x = .ok s ∧
    InOrder c vec c.texts.length (sliceCount c.numWorkers c.texts.length) s) ?_ ?_
  · obtain ⟨s, hs⟩ : ∃ s, c.start = .ok s := by
      have hdivided := (perWorker_ok hnw).mpr ⟨by exact_mod_cast hsum, rfl⟩
      simp only [start, if_neg hne, htotal, hdivided, ok_bind]
      exact ⟨_, rfl⟩
    exact ⟨s, hs, inOrder_start hne htotal hnw hs⟩
  · rintro _ act y ⟨s, rfl, hs⟩ hstep
    obtain ⟨t, rfl⟩ : ∃ t, y = .ok t := by
      cases hstep with
      | round hnext =>
        have hbounds : partBounds (c.texts.length : Nat)
            (sliceCount c.numWorkers c.texts.length : Nat) s.next = .ok ⟨_, _⟩ :=
          partBounds_ok.mpr ⟨hfits.bounds s.next hnext, rfl⟩
        simp only [StreamCall.round, htotal, hs.share, hbounds, ok_bind]
        split
        · exact ⟨_, rfl⟩
        · exact ⟨_, rfl⟩
      | finish hmem =>
        obtain ⟨hlt, rfl, -, -⟩ := hs.threads _ _ hmem
        have hw := lt_of_lt_of_le hlt hs.le
        exact ⟨_, (finish_iff hgranted le_rfl rfl hw).mpr ⟨hfits.steps _ hw, rfl⟩⟩
      | join => exact ⟨_, rfl⟩
    exact ⟨t, rfl, hs.step hgranted le_rfl htotal rfl (sliceCount_pos hnw hn) hstep⟩

omit [Inhabited α] in
theorem total_le (c : StreamCall α) : c.total.toNat ≤ c.texts.length := by
  have hmax := toInt32_le c.texts.length
  rw [intMax] at hmax
  rcases Nat.lt_or_ge c.texts.length (2 ^ 31) with hlt | hge
  · rw [total, toInt32_eq hlt, Int.toNat_natCast]
  · rw [total]
    omega

/-- A run that gets anywhere has started. -/
theorem start_of_run {s : Stream α} (hrun : Run (Step c) c.start acts (.ok s)) :
    ∃ s₀, c.start = .ok s₀ := by
  cases hstart : c.start with
  | ok s₀ => exact ⟨s₀, rfl⟩
  | error fault =>
    rw [hstart] at hrun
    have hstuck := hrun.invariant (I := (· = .error fault)) rfl fun y act z hy hstep => by
      rw [hy] at hstep
      cases hstep
    cases hstuck

/-- A call that has returned with everything delivered has met no overflow. -/
theorem fits_of_returned {s : Stream α} (hne : c.texts ≠ [])
    (hgranted : c.Granted vec dim c.total.toNat) (hrun : Run (Step c) c.start acts (.ok s))
    (hreturned : s.returned) (hall : s.delivered.length = c.texts.length) :
    Fits c.texts.length c.numWorkers c.batch := by
  have hnw : 0 < c.numWorkers := c.pool.workers_pos
  rcases le_or_gt c.total 0 with hnone | hsome
  · obtain ⟨-, -, hnothing⟩ := delivered_nonpositive hnone hne hrun rfl
    rw [hnothing, List.length_nil, eq_comm, List.length_eq_zero_iff] at hall
    exact absurd hall hne
  · have htotal : c.total = c.total.toNat := (Int.toNat_of_nonneg hsome.le).symm
    have hT := c.total_le
    have hs := inOrder_run hne hgranted hT htotal (by omega) hrun rfl
    have henough := le_sliceCount_mul hnw c.total.toNat
    rw [Nat.mul_comm] at henough
    rw [hs.delivered_all henough hreturned, List.length_map, List.length_take_of_le hT] at hall
    rw [hall] at hs htotal
    obtain ⟨hnext, hthreads⟩ := hs.returned hreturned
    refine ⟨?_, fun w hw => hs.bounded w (hnext ▸ hw), fun w hw => hs.fits w ?_⟩
    · obtain ⟨s₀, hstart⟩ := start_of_run hrun
      simp only [start, if_neg hne, htotal, bind_ok, perWorker_ok hnw] at hstart
      obtain ⟨_, ⟨hsum, -⟩, -⟩ := hstart
      exact_mod_cast hsum
    · refine (Bool.not_eq_false _).mp fun hrunning => ?_
      obtain ⟨part, hmem⟩ := hs.running w (hnext ▸ hw) hrunning
      rw [hthreads] at hmem
      cases hmem

/-- Whatever the order of the steps, the callback sees the vectors in the order of the texts
and all of them before the call returns, exactly when no index overflows. -/
theorem delivers_iff (c : StreamCall α)
    (hreached : ∀ worker ∈ c.pool.workers, worker.Reached vec dim)
    (hpure : ∀ w k, (c.env w k).backend.Pure dim vec)
    (hanswers : c.pool.Answers c.env (c.texts.take c.total.toNat) c.batch) :
    (∀ acts x, Run (Step c) c.start acts x → c.Delivers vec x) ↔
      c.texts = [] ∨ Fits c.texts.length c.numWorkers c.batch := by
  have hgranted : c.Granted vec dim c.total.toNat :=
    ⟨fun worker hworker => (hreached worker hworker).serves, hpure, hanswers⟩
  by_cases hempty : c.texts = []
  · refine iff_of_true (fun acts x hrun => ?_) (.inl hempty)
    rw [start_only hempty hrun, start, if_pos hempty]
    refine ⟨_, rfl, List.nil_prefix, fun _ => ?_⟩
    rw [hempty]
    rfl
  · rw [or_iff_right hempty]
    constructor
    · intro hdelivers
      obtain ⟨acts, s, hrun, hreturned⟩ := exists_returned fun acts x hrun =>
        (hdelivers acts x hrun).imp fun _ h => h.1
      obtain ⟨_, hs, -, hall⟩ := hdelivers acts _ hrun
      cases hs
      refine fits_of_returned hempty hgranted hrun hreturned ?_
      rw [hall hreturned, List.length_map]
    · intro hfits acts x hrun
      rw [total_of_fits hfits, Int.toNat_natCast] at hgranted
      obtain ⟨s, rfl, hs⟩ := inOrder_of_fits hempty hgranted hfits hrun
      refine ⟨s, rfl, hs.prefix, fun hreturned => ?_⟩
      have henough := le_sliceCount_mul c.pool.workers_pos c.texts.length
      rw [Nat.mul_comm] at henough
      rw [hs.delivered_all henough hreturned, List.take_length]

-- ---------------------------------------------------------------------------
-- Two workers
-- ---------------------------------------------------------------------------

def sampleCall (texts : List Bytes) (batchSize : Int) : StreamCall Nat :=
  ⟨EmbeddingPool.samplePool, fun _ _ => ⟨0, TextEmbedding.countingBackend⟩, texts, batchSize⟩

theorem answered_of_run {ctx : TextEmbedding α} {calls : List (EmbedCall α)}
    (h : (TextEmbedding.run calls ctx).map (fun p => p.1.all (·.status = .ok)) = .ok true) :
    Answered ctx calls := by
  obtain ⟨⟨replies, ctx'⟩, hrun, hall⟩ := map_ok.mp h
  exact ⟨replies, ctx', hrun, by simpa using hall⟩

/-- The chunks of a pool of two workers succeed when those of either do. -/
theorem sample_answers {texts : List Bytes} {b : Nat}
    (h : ∀ w < 2, Answered (.create .onnx 2 8 0)
      (chunkCalls (fun _ => ⟨0, TextEmbedding.countingBackend⟩) b
        (slice (sliceCount 2 texts.length) texts w))) :
    EmbeddingPool.samplePool.Answers (fun _ _ => ⟨0, TextEmbedding.countingBackend⟩) texts b := by
  intro w worker hworker
  have hw : w < 2 := (List.getElem?_eq_some_iff.mp hworker).1
  have hctx : worker.ctx = .create .onnx 2 8 0 := by
    have hmem := List.mem_of_getElem? hworker
    simp only [EmbeddingPool.samplePool, List.mem_cons, List.not_mem_nil, or_false, or_self]
      at hmem
    rw [hmem]
  rw [hctx]
  exact h w hw

theorem stepsFit_of_small (h : ((e + b : Nat) : Int) ≤ intMax) : StepsFit a e b := by
  intro k hk
  refine le_trans (Int.ofNat_le.mpr ?_) h
  rw [Nat.succ_mul]
  omega

/-- Whatever is interleaved, a call delivers. -/
def AlwaysDelivers (c : StreamCall α) (vec : Bytes → List α) : Prop :=
  ∀ acts x, Run (Step c) c.start acts x → c.Delivers vec x

theorem delivers_iff_sample : (sampleCall [[7], [], [8, 8]] 1).AlwaysDelivers
    fun t => [t.length, t.count 0] := by
  have hanswers : EmbeddingPool.samplePool.Answers
      (fun _ _ => ⟨0, TextEmbedding.countingBackend⟩) [[7], [], [8, 8]] 1 := by
    refine sample_answers fun w hw => answered_of_run ?_
    interval_cases w
    · decide +kernel
    · decide +kernel
  refine (delivers_iff (sampleCall [[7], [], [8, 8]] 1) EmbeddingPool.samplePool_reached
    (fun _ _ => TextEmbedding.countingBackend_pure) hanswers).mpr (.inr ⟨by decide, ?_, ?_⟩)
  · intro w hw
    change w < 2 at hw
    interval_cases w
    · decide
    · decide
  · intro w _
    refine stepsFit_of_small (le_trans (Int.ofNat_le.mpr (Nat.add_le_add_right (min_le_right ..) _))
      ?_)
    decide

/-- Two texts in the largest batches there are. -/
def largestBatch : StreamCall Nat := sampleCall [[7], [8, 8]] 2147483647

/-- The call while its threads are being started. -/
def starting (threads : List (Nat × BatchRange)) : Stream Nat :=
  ⟨1, threads.length, threads, [[], []], [false, false], 0, [], false⟩

/-- The loop of the second worker goes on to an index that is no `int`. -/
theorem largest_batch_overflows :
    largestBatch.pool.Answers largestBatch.env (largestBatch.texts.take largestBatch.total.toNat)
        largestBatch.batch ∧
      ∃ acts x, Run (Step largestBatch) largestBatch.start acts x ∧
        ¬largestBatch.Delivers (fun t => [t.length, t.count 0]) x := by
  refine ⟨sample_answers fun w hw => answered_of_run ?_, ?_⟩
  · interval_cases w
    · decide +kernel
    · decide +kernel
  · have hstart : largestBatch.start = .ok (starting []) := by decide +kernel
    have hfirst : Step largestBatch (.ok (starting [])) .round (.ok (starting [(0, ⟨0, 1⟩)])) := by
      have hround : largestBatch.round (starting []) = .ok (starting [(0, ⟨0, 1⟩)]) := by
        decide +kernel
      rw [← hround]
      exact .round (by decide)
    have hsecond : Step largestBatch (.ok (starting [(0, ⟨0, 1⟩)])) .round
        (.ok (starting [(0, ⟨0, 1⟩), (1, ⟨1, 2⟩)])) := by
      have hround : largestBatch.round (starting [(0, ⟨0, 1⟩)]) =
          .ok (starting [(0, ⟨0, 1⟩), (1, ⟨1, 2⟩)]) := by decide +kernel
      rw [← hround]
      exact .round (by decide)
    have hthird : Step largestBatch (.ok (starting [(0, ⟨0, 1⟩), (1, ⟨1, 2⟩)])) (.finish 1)
        (.error .overflow) := by
      have hfinish : largestBatch.finish (starting [(0, ⟨0, 1⟩), (1, ⟨1, 2⟩)]) 1 ⟨1, 2⟩ =
          .error .overflow := by decide +kernel
      rw [← hfinish]
      exact .finish (by decide)
    have hrun := ((Run.start.next hfirst).next hsecond).next hthird
    rw [← hstart] at hrun
    exact ⟨_, _, hrun, fun ⟨_, hx, _⟩ => by cases hx⟩

end StreamCall

end LibEmbedding
