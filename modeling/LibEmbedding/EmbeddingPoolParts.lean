import LibEmbedding.EmbeddingPool
import LibEmbedding.Foundation.Runs
import LibEmbedding.TextEmbeddingCache

/-!
# Who embeds which text

A worker's rounds are the calls of its context on the batches of its part, and the parts
are the batches of the whole list. A call of the pool returns every vector at its place
exactly when all of those calls succeed and every index stays an `int`.
-/

namespace LibEmbedding

open Foundation

variable {α : Type} [Inhabited α]

-- ---------------------------------------------------------------------------
-- The rounds of a worker
-- ---------------------------------------------------------------------------

/-- No index of a loop from `a` to `e` in steps of `b` overflows. -/
def StepsFit (a e b : Nat) : Prop :=
  ∀ k, a + k * b < e → ((a + (k + 1) * b : Nat) : Int) ≤ intMax

theorem stepsFit_of_le (h : e ≤ a) : StepsFit a e b := fun k hk => absurd hk (by omega)

theorem stepsFit_succ (hlt : a < e) :
    StepsFit a e b ↔ ((a + b : Nat) : Int) ≤ intMax ∧ StepsFit (a + b) e b := by
  constructor
  · intro h
    have hfirst := h 0 (by rwa [Nat.zero_mul])
    refine ⟨by simpa using hfirst, fun k hk => ?_⟩
    have hnext := h (k + 1) (by rw [Nat.succ_mul]; omega)
    rwa [show a + (k + 1 + 1) * b = a + b + (k + 1) * b by ring] at hnext
  · rintro ⟨hfirst, hrest⟩ k hk
    cases k with
    | zero => simpa using hfirst
    | succ k =>
      have hnext := hrest k (by rw [Nat.succ_mul] at hk; omega)
      rwa [show a + b + (k + 1) * b = a + (k + 1 + 1) * b by ring] at hnext

/-- The loop over the chunks as a counted loop. -/
theorem chunkLoop_ok {body : σ → Int → Int → Checked σ} (hb : 0 < b) (hfuel : e - a ≤ fuel) :
    chunkLoop body (e : Nat) (b : Nat) fuel (a : Nat) s = .ok t ↔ StepsFit a e b ∧
      forUpTo (sliceCount b (e - a)) (fun s k => body s ((a + k * b : Nat) : Int)
        ((min b (e - (a + k * b)) : Nat) : Int)) s = .ok t := by
  induction fuel generalizing a s with
  | zero =>
    have hend : e - a = 0 := Nat.le_zero.mp hfuel
    have hfit : StepsFit a e b := fun k hk => by omega
    rw [hend, sliceCount_zero hb]
    simp [chunkLoop, hfit]
  | succ fuel ih =>
    unfold chunkLoop
    by_cases hlt : a < e
    · have hcount : sliceCount b (e - a) = sliceCount b (e - (a + b)) + 1 := by
        rw [sliceCount_step hb (by omega), Nat.sub_sub]
      have hsize : min (b : Int) ((e : Int) - a) = ((min b (e - (a + 0 * b)) : Nat) : Int) := by
        rw [Nat.zero_mul]
        omega
      have hindex : ((a + 0 * b : Nat) : Int) = a := by simp
      have hshift (k : Nat) : a + (k + 1) * b = a + b + k * b := by ring
      have hmin : intMin ≤ (a : Int) + b := by
        have hneg : intMin ≤ 0 := by decide
        omega
      rw [if_pos (Int.ofNat_lt.mpr hlt), hcount, forUpTo_cons, hsize, hindex, stepsFit_succ hlt]
      simp only [bind_ok, addInt, narrow_ok, hshift, Int.natCast_add]
      constructor
      · rintro ⟨u, hbody, i, ⟨hfits, rfl⟩, hloop⟩
        rw [← Int.natCast_add] at hloop
        obtain ⟨hrest, hrun⟩ := (ih (by omega)).mp hloop
        simp only [Int.natCast_add] at hrun
        exact ⟨⟨hfits.2, hrest⟩, u, hbody, hrun⟩
      · rintro ⟨⟨hfits, hrest⟩, u, hbody, hrun⟩
        refine ⟨u, hbody, _, ⟨⟨hmin, hfits⟩, rfl⟩, ?_⟩
        rw [← Int.natCast_add, ih (by omega)]
        simp only [Int.natCast_add]
        exact ⟨hrest, hrun⟩
    · have hend : e - a = 0 := by omega
      have hfit : StepsFit a e b := fun k hk => by omega
      rw [if_neg (by simpa using hlt), hend, sliceCount_zero hb]
      simp [hfit]

/-- The call that embeds chunk `k` of a part, in chunks of `b`. -/
def chunkCall (env : Nat → ChunkEnv α) (b : Nat) (part : List Bytes) (k : Nat) : EmbedCall α :=
  ⟨(slice b part k).map cstr, (slice b part k).length, (env k).now, (env k).backend⟩

def chunkCalls (env : Nat → ChunkEnv α) (b : Nat) (part : List Bytes) : List (EmbedCall α) :=
  (List.range (sliceCount b part.length)).map (chunkCall env b part)

/-- What a call adds to the result of its worker. -/
def EmbedCall.answer (vec : Bytes → List α) (call : EmbedCall α) (reply : EmbedReply α) :
    List (List α) :=
  if reply.status = .ok then call.texts.map vec else []

/-- What the calls of a worker add up to. -/
def answers (vec : Bytes → List α) (calls : List (EmbedCall α)) (replies : List (EmbedReply α)) :
    List (List α) :=
  (List.zipWith (EmbedCall.answer vec) calls replies).flatten

variable {vec : Bytes → List α} {env : Nat → ChunkEnv α} {texts : List Bytes}

theorem run_concat (calls : List (EmbedCall α)) (call : EmbedCall α) (ctx : TextEmbedding α) :
    TextEmbedding.run (calls ++ [call]) ctx = (do
      let (replies, ctx) ← TextEmbedding.run calls ctx
      let (reply, ctx) ← ctx.embed call
      return (replies ++ [reply], ctx)) := by
  induction calls generalizing ctx with
  | nil =>
    rw [List.nil_append, TextEmbedding.run]
    cases ctx.embed call with
    | error e => rfl
    | ok p => rfl
  | cons head calls ih =>
    rw [List.cons_append, TextEmbedding.run, TextEmbedding.run]
    cases ctx.embed head with
    | error e => rfl
    | ok p =>
      simp only [ok_bind, ih]
      cases TextEmbedding.run calls p.2 with
      | error e => rfl
      | ok q =>
        simp only [ok_bind, pure_bind]
        cases q.2.embed call with
        | error e => rfl
        | ok r => rfl

omit [Inhabited α] in
/-- The rows of a successful reply are the vectors of its texts. -/
theorem rows_matrix {reply : EmbedReply α} (hvec : ∀ text, (vec text).length = dim)
    (h : reply.result = some ⟨some (texts.flatMap vec), texts.length, dim⟩) :
    reply.rows = .ok (texts.map vec) := by
  unfold EmbedReply.rows
  rw [h]
  have hlength : (texts.flatMap vec).length = texts.length * dim := length_flatMap fun x _ => hvec x
  have hrow : ∀ k ∈ List.range texts.length, readAt ((some (texts.flatMap vec)).getD []) (k * dim)
      dim = .ok (vec (texts.getD k [])) := by
    intro k hk
    have hk := List.mem_range.mp hk
    rw [Option.getD_some, readAt_row hlength hk]
    refine congrArg Except.ok (row_flatMap (fun x _ => hvec x) ?_)
    rw [List.getD_eq_getElem?_getD, List.getElem?_eq_getElem hk, Option.getD_some]
  dsimp only
  rw [mapM_eq hrow]
  refine congrArg Except.ok (List.ext_getElem (by simp) fun k hk hk' => ?_)
  have hk : k < texts.length := by simpa using hk
  simp [hk]

/-- The texts of a part. -/
def textPart (texts : List Bytes) (a e : Nat) : List Bytes := (texts.drop a).take (e - a)

omit [Inhabited α] in
theorem length_textPart (he : e ≤ texts.length) : (textPart texts a e).length = e - a := by
  rw [textPart, List.length_take, List.length_drop]
  omega

/-- A round is one call on the next chunk of the part. -/
theorem embedChunk_eq {s : Subset α} (hserves : s.ctx.Serves vec)
    (hpure : (env s.chunks).backend.Pure s.ctx.dim vec) (he : e ≤ texts.length)
    (hk : a + s.chunks * b < e) :
    embedChunk env texts s ((a + s.chunks * b : Nat) : Int)
        ((min b (e - (a + s.chunks * b)) : Nat) : Int) =
      let call := chunkCall env b (textPart texts a e) s.chunks
      (s.ctx.embed call).map fun p => ⟨s.chunks + 1, s.result ++ call.answer vec p.1, p.2⟩ := by
  have hlength : (slice b (textPart texts a e) s.chunks).length =
      min b (e - (a + s.chunks * b)) := by
    rw [length_slice, length_textPart he]
    omega
  have hchunk : ((List.range (min b (e - (a + s.chunks * b)))).mapM fun j =>
      get texts (a + s.chunks * b + j)) = .ok (slice b (textPart texts a e) s.chunks) := by
    rw [← hlength, List.range_eq_range', mapM_range' (g := id), List.map_id]
    intro j x hj
    have hpart := getElem?_of_slice hj
    rw [textPart, List.getElem?_take, List.getElem?_drop] at hpart
    split at hpart
    · rw [Nat.zero_add, get_ok, Nat.add_assoc]
      exact hpart
    · cases hpart
  unfold embedChunk
  simp only [Int.toNat_natCast, hchunk, ok_bind, chunkCall, hlength]
  cases hcall : s.ctx.embed _ with
  | error e => rfl
  | ok p =>
    obtain ⟨reply, ctx⟩ := p
    have hanswers := TextEmbedding.embed_answers hpure hserves hcall
    by_cases hok : reply.status = .ok
    · have hrows := rows_matrix hpure.length_vec (hanswers.matrix hok)
      simp only [Except.map, ok_bind, if_pos hok, hrows, EmbedCall.answer]
      rfl
    · simp only [Except.map, ok_bind, if_neg hok, EmbedCall.answer]
      rfl

theorem length_of_run {ctx : TextEmbedding α} {calls : List (EmbedCall α)}
    (h : TextEmbedding.run calls ctx = .ok (replies, ctx')) : replies.length = calls.length := by
  induction calls generalizing ctx replies with
  | nil =>
    cases h
    rfl
  | cons call calls ih =>
    simp only [TextEmbedding.run, bind_ok] at h
    obtain ⟨_, -, ⟨rest, last⟩, hrest, h⟩ := h
    cases h
    exact congrArg (· + 1) (ih hrest)

omit [Inhabited α] in
theorem answers_concat {calls : List (EmbedCall α)} {replies : List (EmbedReply α)}
    (h : replies.length = calls.length) (call : EmbedCall α) (reply : EmbedReply α) :
    answers vec (calls ++ [call]) (replies ++ [reply]) =
      answers vec calls replies ++ call.answer vec reply := by
  rw [answers, List.zipWith_append h.symm, List.flatten_append]
  simp [answers]

/-- After `n` rounds a worker has made its first `n` calls. -/
theorem rounds_eq {ctx : TextEmbedding α} (hserves : ctx.Serves vec)
    (hpure : ∀ k, (env k).backend.Pure ctx.dim vec) (hb : 0 < b) (he : e ≤ texts.length)
    (hn : n ≤ sliceCount b (e - a)) :
    forUpTo n (fun s k => embedChunk env texts s ((a + k * b : Nat) : Int)
        ((min b (e - (a + k * b)) : Nat) : Int)) ⟨0, [], ctx⟩ =
      let calls := (List.range n).map (chunkCall env b (textPart texts a e))
      (TextEmbedding.run calls ctx).map fun p => ⟨n, answers vec calls p.1, p.2⟩ := by
  induction n with
  | zero => rfl
  | succ n ih =>
    have hstart : a + n * b < e := by
      have hlt := slice_start_lt hb hn
      omega
    rw [forUpTo_succ, ih (by omega)]
    simp only [List.range_succ, List.map_append, List.map_singleton, run_concat]
    cases hrun : TextEmbedding.run _ ctx with
    | error err => rfl
    | ok p =>
      obtain ⟨replies, mid⟩ := p
      have hcalls : ∀ call ∈ (List.range n).map (chunkCall env b (textPart texts a e)),
          call.backend.Pure ctx.dim vec := by
        intro call hcall
        obtain ⟨k, -, rfl⟩ := List.mem_map.mp hcall
        exact hpure k
      obtain ⟨hmid, hdim, -⟩ := TextEmbedding.run_serves hcalls hserves hrun
      have hround := embedChunk_eq (b := b) (s := ⟨n, answers vec ((List.range n).map
        (chunkCall env b (textPart texts a e))) replies, mid⟩) hmid (by rw [hdim]; exact hpure n)
        he hstart
      simp only [Except.map, ok_bind]
      dsimp only at hround
      rw [hround]
      cases hcall : mid.embed (chunkCall env b (textPart texts a e) n) with
      | error err => rfl
      | ok q =>
        simp only [Except.map, ok_bind]
        rw [← answers_concat (length_of_run hrun)]
        rfl

-- ---------------------------------------------------------------------------
-- A worker's part
-- ---------------------------------------------------------------------------

/-- Every call succeeds. -/
def Answered (ctx : TextEmbedding α) (calls : List (EmbedCall α)) : Prop :=
  ∃ replies ctx', TextEmbedding.run calls ctx = .ok (replies, ctx') ∧
    ∀ reply ∈ replies, reply.status = .ok

/-- What embedding a part comes to. -/
theorem embedSubset_ok {worker worker' : PoolWorker α} (hserves : worker.ctx.Serves vec)
    (hpure : ∀ k, (env k).backend.Pure worker.ctx.dim vec) (hb : 0 < b) (he : e ≤ texts.length) :
    worker.embedSubset env texts (a : Nat) (e : Nat) (b : Nat) = .ok (rows, worker') ↔
      StepsFit a e b ∧ ∃ replies ctx, TextEmbedding.run (chunkCalls env b (textPart texts a e))
        worker.ctx = .ok (replies, ctx) ∧ worker' = { worker with ctx } ∧
          rows = answers vec (chunkCalls env b (textPart texts a e)) replies := by
  have hfuel : ((e : Int) - a).toNat = e - a := by omega
  unfold PoolWorker.embedSubset
  simp only [bind_ok, hfuel, chunkLoop_ok hb le_rfl, rounds_eq hserves hpure hb he le_rfl, pure_ok,
    map_ok, chunkCalls, length_textPart he]
  constructor
  · rintro ⟨s, ⟨hsteps, ⟨replies, ctx⟩, hrun, rfl⟩, h⟩
    cases h
    exact ⟨hsteps, replies, ctx, hrun, rfl, rfl⟩
  · rintro ⟨hsteps, replies, ctx, hrun, rfl, rfl⟩
    exact ⟨_, ⟨hsteps, _, hrun, rfl⟩, rfl⟩

omit [Inhabited α] in
/-- Answers are as many as the texts exactly when every call has succeeded. -/
theorem length_answers {calls : List (EmbedCall α)} {replies : List (EmbedReply α)}
    (hlength : replies.length = calls.length) :
    (answers vec calls replies).length ≤ (calls.flatMap EmbedCall.texts).length ∧
      ((∀ call ∈ calls, call.texts ≠ []) →
        (answers vec calls replies).length = (calls.flatMap EmbedCall.texts).length →
          ∀ reply ∈ replies, reply.status = .ok) := by
  induction calls generalizing replies with
  | nil =>
    obtain rfl := List.length_eq_zero_iff.mp hlength
    exact ⟨le_rfl, fun _ _ reply hreply => absurd hreply List.not_mem_nil⟩
  | cons call calls ih =>
    cases replies with
    | nil => cases hlength
    | cons reply replies =>
      obtain ⟨hle, hfull⟩ := ih (Nat.succ.inj hlength)
      have hanswers : answers vec (call :: calls) (reply :: replies) =
          call.answer vec reply ++ answers vec calls replies := by
        rw [answers, List.zipWith_cons_cons, List.flatten_cons, answers]
      rw [hanswers, List.length_append, List.flatMap_cons, List.length_append]
      by_cases hok : reply.status = .ok
      · rw [EmbedCall.answer, if_pos hok, List.length_map]
        refine ⟨Nat.add_le_add_left hle _, fun hne heq => ?_⟩
        exact List.forall_mem_cons.mpr ⟨hok, hfull (List.forall_mem_cons.mp hne).2
          (Nat.add_left_cancel heq)⟩
      · rw [EmbedCall.answer, if_neg hok, List.length_nil, Nat.zero_add]
        refine ⟨hle.trans (Nat.le_add_left ..), fun hne heq => ?_⟩
        have hpos := List.length_pos_iff.mpr (List.forall_mem_cons.mp hne).1
        omega

omit [Inhabited α] in
theorem answers_ok {calls : List (EmbedCall α)} {replies : List (EmbedReply α)}
    (hlength : replies.length = calls.length) (hok : ∀ reply ∈ replies, reply.status = .ok) :
    answers vec calls replies = (calls.flatMap EmbedCall.texts).map vec := by
  induction calls generalizing replies with
  | nil => simp [answers]
  | cons call calls ih =>
    cases replies with
    | nil => cases hlength
    | cons reply replies =>
      obtain ⟨hfirst, hrest⟩ := List.forall_mem_cons.mp hok
      have htail := ih (Nat.succ.inj hlength) hrest
      rw [answers] at htail
      rw [answers, List.zipWith_cons_cons, List.flatten_cons, htail, EmbedCall.answer,
        if_pos hfirst, List.flatMap_cons, List.map_append]

omit [Inhabited α] in
theorem flatMap_chunkCalls (hb : 0 < b) (part : List Bytes) :
    (chunkCalls env b part).flatMap EmbedCall.texts = part.map cstr := by
  have htexts : (chunkCalls env b part).flatMap EmbedCall.texts =
      ((List.range (sliceCount b part.length)).flatMap (slice b part)).map cstr := by
    rw [chunkCalls, List.flatMap_map, List.map_flatMap]
    rfl
  rw [htexts, flatMap_slices, take_slices hb]

omit [Inhabited α] in
theorem chunkCalls_ne_nil (hb : 0 < b) (part : List Bytes) :
    ∀ call ∈ chunkCalls env b part, call.texts ≠ [] := by
  intro call hcall
  obtain ⟨k, hk, rfl⟩ := List.mem_map.mp hcall
  have hstart := slice_start_lt hb (List.mem_range.mp hk)
  refine List.ne_nil_of_length_pos ?_
  rw [chunkCall, List.length_map, length_slice]
  omega

/-- A worker returns the vectors of its part, or fewer. -/
theorem embedSubset_length {worker worker' : PoolWorker α} (hserves : worker.ctx.Serves vec)
    (hpure : ∀ k, (env k).backend.Pure worker.ctx.dim vec) (hb : 0 < b) (he : e ≤ texts.length)
    (h : worker.embedSubset env texts (a : Nat) (e : Nat) (b : Nat) = .ok (rows, worker')) :
    rows.length ≤ e - a ∧ StepsFit a e b ∧ (rows.length = e - a →
      Answered worker.ctx (chunkCalls env b (textPart texts a e)) ∧
        rows = (textPart texts a e).map fun text => vec (cstr text)) := by
  obtain ⟨hsteps, replies, ctx, hrun, -, rfl⟩ := (embedSubset_ok hserves hpure hb he).mp h
  have hlength := length_of_run hrun
  obtain ⟨hle, hfull⟩ := length_answers hlength
  rw [flatMap_chunkCalls hb, List.length_map, length_textPart he] at hle hfull
  refine ⟨hle, hsteps, fun heq => ?_⟩
  have hok := hfull (chunkCalls_ne_nil hb _) heq
  refine ⟨⟨replies, ctx, hrun, hok⟩, ?_⟩
  rw [answers_ok hlength hok, flatMap_chunkCalls hb, List.map_map]
  rfl

/-- When nothing fails a worker returns the vectors of its part. -/
theorem embedSubset_answered {worker : PoolWorker α} (hserves : worker.ctx.Serves vec)
    (hpure : ∀ k, (env k).backend.Pure worker.ctx.dim vec) (hb : 0 < b) (he : e ≤ texts.length)
    (hsteps : StepsFit a e b)
    (hanswered : Answered worker.ctx (chunkCalls env b (textPart texts a e))) :
    ∃ worker', worker.embedSubset env texts (a : Nat) (e : Nat) (b : Nat) =
      .ok ((textPart texts a e).map fun text => vec (cstr text), worker') := by
  obtain ⟨replies, ctx, hrun, hok⟩ := hanswered
  refine ⟨{ worker with ctx }, (embedSubset_ok hserves hpure hb he).mpr
    ⟨hsteps, replies, ctx, hrun, rfl, ?_⟩⟩
  rw [answers_ok (length_of_run hrun) hok, flatMap_chunkCalls hb, List.map_map]
  rfl

/-- When nothing fails a worker stops only where its loop overflows. -/
theorem embedSubset_iff {worker : PoolWorker α} (hserves : worker.ctx.Serves vec)
    (hpure : ∀ k, (env k).backend.Pure worker.ctx.dim vec) (hb : 0 < b) (he : e ≤ texts.length)
    (hanswered : Answered worker.ctx (chunkCalls env b (textPart texts a e))) :
    (∃ worker', worker.embedSubset env texts (a : Nat) (e : Nat) (b : Nat) = .ok (rows, worker')) ↔
      StepsFit a e b ∧ rows = (textPart texts a e).map fun text => vec (cstr text) := by
  constructor
  · rintro ⟨worker', h⟩
    obtain ⟨hsteps, replies, ctx, hrun, -, rfl⟩ := (embedSubset_ok hserves hpure hb he).mp h
    obtain ⟨replies', ctx', hrun', hok⟩ := hanswered
    cases hrun.symm.trans hrun'
    refine ⟨hsteps, ?_⟩
    rw [answers_ok (length_of_run hrun) hok, flatMap_chunkCalls hb, List.map_map]
    rfl
  · rintro ⟨hsteps, rfl⟩
    exact embedSubset_answered hserves hpure hb he hsteps hanswered

-- ---------------------------------------------------------------------------
-- The parts of a call
-- ---------------------------------------------------------------------------

omit [Inhabited α] in
theorem perWorker_ok (hnw : 0 < nw) : perWorker (total : Nat) (nw : Nat) = .ok per ↔
    ((total : Int) + nw ≤ intMax) ∧ (sliceCount nw total : Int) = per := by
  have hpositive : ¬(nw : Int) ≤ 0 := by omega
  rw [← batchCount_slices hnw, batchCount, if_neg hpositive]
  rfl

theorem partBounds_ok {total per w : Nat} : partBounds total per w = .ok part ↔
    (((w + 1) * per : Nat) : Int) ≤ intMax ∧
      part = ⟨((w * per : Nat) : Int), ((min ((w + 1) * per) total : Nat) : Int)⟩ := by
  have hmin : intMin ≤ 0 := by decide
  have hstart : 0 ≤ ((w * per : Nat) : Int) := Int.natCast_nonneg _
  have hstop : (((w + 1) * per : Nat) : Int) = ((w * per : Nat) : Int) + per := by
    rw [Nat.succ_mul, Int.natCast_add]
  simp only [partBounds, mulInt, addInt, bind_ok, narrow_ok, pure_ok, ← Int.natCast_mul,
    Nat.cast_min, hstop]
  constructor
  · rintro ⟨_, ⟨-, rfl⟩, _, ⟨hfits, rfl⟩, rfl⟩
    exact ⟨hfits.2, rfl⟩
  · rintro ⟨hfits, rfl⟩
    exact ⟨_, ⟨⟨by omega, by omega⟩, rfl⟩, _, ⟨⟨by omega, hfits⟩, rfl⟩, rfl⟩

omit [Inhabited α] in
theorem textPart_of_le (h : e ≤ a) : textPart texts a e = [] := by
  rw [textPart, Nat.sub_eq_zero_of_le h, List.take_zero]

omit [Inhabited α] in
theorem textPart_append (ha : a ≤ m) :
    textPart texts a (min m e) ++ textPart texts m e = textPart texts a e := by
  rcases Nat.le_total m e with hme | hem
  · have hlength : e - a = (m - a) + (e - m) := by omega
    rw [Nat.min_eq_left hme, textPart, textPart, textPart, hlength, List.take_add, List.drop_drop,
      Nat.add_sub_cancel' ha]
  · rw [Nat.min_eq_right hem, textPart_of_le hem, List.append_nil]

omit [Inhabited α] in
theorem textPart_take {texts : List Bytes} (h : e ≤ T) :
    textPart (texts.take T) a e = textPart texts a e := by
  rw [textPart, textPart, List.drop_take, List.take_take, Nat.min_eq_left (by omega)]

omit [Inhabited α] in
theorem slice_eq_textPart (texts : List Bytes) (per w : Nat) :
    slice per texts w = textPart texts (w * per) (min ((w + 1) * per) texts.length) := by
  rw [slice, textPart, Nat.succ_mul]
  rcases Nat.le_total (w * per + per) texts.length with hle | hle
  · rw [Nat.min_eq_left hle, Nat.add_sub_cancel_left]
  · rw [Nat.min_eq_right hle, List.take_of_length_le, List.take_of_length_le]
    · rw [List.length_drop]
    · rw [List.length_drop]
      omega

/-- A worker as its constructor makes it, without a cache, and as calls of its context
leave it. -/
def PoolWorker.Reached (vec : Bytes → List α) (dim : Nat) (worker : PoolWorker α) : Prop :=
  ∃ backendType batchSize calls replies, (∀ call ∈ calls, call.backend.Pure dim vec) ∧
    TextEmbedding.run calls (.create backendType dim batchSize 0) = .ok (replies, worker.ctx)

theorem PoolWorker.Reached.serves {worker : PoolWorker α} (h : worker.Reached vec dim) :
    worker.ctx.Serves vec ∧ worker.ctx.dim = dim := by
  obtain ⟨backendType, batchSize, calls, replies, hpure, hrun⟩ := h
  obtain ⟨hserves, hdim, -⟩ := TextEmbedding.run_serves hpure
    (TextEmbedding.create_serves vec backendType dim batchSize 0) hrun
  exact ⟨hserves, hdim⟩

namespace EmbeddingPool

/-- The part of worker `w` meets no overflow and no failure. -/
structure PartRuns (env : Nat → Nat → ChunkEnv α) (texts : List Bytes) (total per b : Nat)
    (w : Nat) (worker : PoolWorker α) : Prop where
  steps : StepsFit (w * per) (min ((w + 1) * per) total) b
  answered : Answered worker.ctx
    (chunkCalls (env w) b (textPart texts (w * per) (min ((w + 1) * per) total)))

/-- So do the parts from `w` on, up to the first that is empty. -/
def PartsRun (env : Nat → Nat → ChunkEnv α) (texts : List Bytes) (total per b : Nat) :
    List (PoolWorker α) → Nat → Prop
  | [], _ => True
  | worker :: workers, w => (((w + 1) * per : Nat) : Int) ≤ intMax ∧ (w * per < total →
      PartRuns env texts total per b w worker ∧
        PartsRun env texts total per b workers (w + 1))

variable {env : Nat → Nat → ChunkEnv α} {workers : List (PoolWorker α)} {total per b : Nat}

theorem embedParts_length (hserves : ∀ worker ∈ workers, worker.ctx.Serves vec ∧
      worker.ctx.dim = dim) (hpure : ∀ w k, (env w k).backend.Pure dim vec) (hb : 0 < b)
    (hper : 0 < per) (htotal : total ≤ texts.length)
    (h : embedParts env texts (total : Nat) (per : Nat) (b : Nat) workers w =
      .ok (rows, workers')) :
    rows.length ≤ total - w * per ∧ (rows.length = total - w * per →
      PartsRun env texts total per b workers w ∧
        rows = (textPart texts (w * per) total).map fun text => vec (cstr text)) := by
  induction workers generalizing w rows workers' with
  | nil =>
    cases h
    refine ⟨Nat.zero_le _, fun hzero => ⟨trivial, ?_⟩⟩
    rw [textPart_of_le (by simp only [List.length_nil] at hzero; omega)]
    rfl
  | cons worker workers ih =>
    obtain ⟨⟨hworker, hdim⟩, hrest⟩ := List.forall_mem_cons.mp hserves
    simp only [embedParts, bind_ok, partBounds_ok] at h
    obtain ⟨_, ⟨hbound, rfl⟩, h⟩ := h
    dsimp only at h
    have hsucc : (w + 1) * per = w * per + per := Nat.succ_mul w per
    by_cases hlast : w * per < total
    · have hmin : min ((w + 1) * per) total ≤ texts.length := (min_le_right ..).trans htotal
      have hstart : w * per < min ((w + 1) * per) total := by omega
      rw [if_neg (by omega)] at h
      simp only [bind_ok] at h
      obtain ⟨⟨first, worker'⟩, hfirst, ⟨rest, workers''⟩, hothers, h⟩ := h
      cases h
      have hpure' : ∀ k, (env w k).backend.Pure worker.ctx.dim vec := by
        rw [hdim]
        exact hpure w
      obtain ⟨hle, hsteps, hfull⟩ := embedSubset_length hworker hpure' hb hmin hfirst
      obtain ⟨hle', hfull'⟩ := ih hrest hothers
      dsimp only
      rw [List.length_append]
      refine ⟨by omega, fun heq => ?_⟩
      obtain ⟨hanswered, rfl⟩ := hfull (by omega)
      obtain ⟨hruns, rfl⟩ := hfull' (by omega)
      refine ⟨⟨hbound, fun _ => ⟨⟨hsteps, hanswered⟩, hruns⟩⟩, ?_⟩
      rw [← List.map_append, textPart_append (by omega)]
    · have hempty : min ((w + 1) * per) total ≤ w * per := by omega
      rw [if_pos (by omega)] at h
      cases h
      refine ⟨Nat.zero_le _, fun _ => ⟨⟨hbound, fun hlt => absurd hlt hlast⟩, ?_⟩⟩
      rw [textPart_of_le (by omega)]
      rfl

/-- When nothing fails and there are parts enough, the call returns the rest of the vectors. -/
theorem embedParts_run (hserves : ∀ worker ∈ workers, worker.ctx.Serves vec ∧
      worker.ctx.dim = dim) (hpure : ∀ w k, (env w k).backend.Pure dim vec) (hb : 0 < b)
    (hper : 0 < per) (htotal : total ≤ texts.length) (henough : total ≤ (w + workers.length) * per)
    (h : PartsRun env texts total per b workers w) :
    ∃ workers', embedParts env texts (total : Nat) (per : Nat) (b : Nat) workers w =
      .ok ((textPart texts (w * per) total).map fun text => vec (cstr text), workers') := by
  induction workers generalizing w with
  | nil =>
    refine ⟨[], ?_⟩
    rw [textPart_of_le (by simpa using henough)]
    rfl
  | cons worker workers ih =>
    obtain ⟨⟨hworker, hdim⟩, hrest⟩ := List.forall_mem_cons.mp hserves
    obtain ⟨hbound, hruns⟩ := h
    have hsucc : (w + 1) * per = w * per + per := Nat.succ_mul w per
    have hbounds : partBounds (total : Nat) (per : Nat) w = .ok ⟨_, _⟩ :=
      partBounds_ok.mpr ⟨hbound, rfl⟩
    simp only [embedParts, hbounds, ok_bind]
    by_cases hlast : w * per < total
    · obtain ⟨⟨hsteps, hanswered⟩, hothers⟩ := hruns hlast
      have hmin : min ((w + 1) * per) total ≤ texts.length := (min_le_right ..).trans htotal
      have hpure' : ∀ k, (env w k).backend.Pure worker.ctx.dim vec := by
        rw [hdim]
        exact hpure w
      obtain ⟨worker', hfirst⟩ := embedSubset_answered hworker hpure' hb hmin hsteps hanswered
      have henough' : total ≤ (w + 1 + workers.length) * per := by
        rwa [Nat.add_assoc, Nat.add_comm 1]
      obtain ⟨workers', hothers⟩ := ih hrest henough' hothers
      have hnonempty : ¬((min ((w + 1) * per) total : Nat) : Int) ≤ ((w * per : Nat) : Int) := by
        omega
      refine ⟨worker' :: workers', ?_⟩
      rw [if_neg hnonempty, hfirst, ok_bind, hothers, ok_bind, ← List.map_append,
        textPart_append (by omega)]
      rfl
    · refine ⟨worker :: workers, ?_⟩
      rw [if_pos (by omega), textPart_of_le (by omega)]
      rfl

theorem partRuns_of_le {worker : PoolWorker α} (hb : 0 < b) (h : total ≤ w * per) :
    PartRuns env texts total per b w worker := by
  have hempty : min ((w + 1) * per) total ≤ w * per := (min_le_right ..).trans h
  refine ⟨stepsFit_of_le hempty, [], worker.ctx, ?_, fun _ hreply => absurd hreply List.not_mem_nil⟩
  rw [textPart_of_le hempty, chunkCalls, List.length_nil, sliceCount_zero hb]
  rfl

/-- The parts run when the bounds of those that are looked at do not overflow and each part
runs by itself. -/
theorem partsRun_iff (hb : 0 < b) : PartsRun env texts total per b workers w ↔
    (∀ v, w ≤ v → v < w + workers.length → (v = w ∨ (v - 1) * per < total) →
      (((v + 1) * per : Nat) : Int) ≤ intMax) ∧
    ∀ j worker, workers[j]? = some worker → PartRuns env texts total per b (w + j) worker := by
  induction workers generalizing w with
  | nil =>
    refine iff_of_true trivial ⟨fun v hle hlt => ?_, fun j worker hj => by cases hj⟩
    exact absurd hlt (not_lt.mpr hle)
  | cons worker workers ih =>
    rw [PartsRun, ih]
    constructor
    · rintro ⟨hbound, hruns⟩
      refine ⟨fun v hle hlt hv => ?_, fun j worker' hj => ?_⟩
      · rcases Nat.eq_or_lt_of_le hle with rfl | hlater
        · exact hbound
        · have hprevious := hv.resolve_left (by omega)
          have hnonempty : w * per < total :=
            lt_of_le_of_lt (Nat.mul_le_mul_right per (by omega)) hprevious
          refine (hruns hnonempty).2.1 v hlater ?_ (.inr hprevious)
          rw [List.length_cons] at hlt
          omega
      · by_cases hnonempty : w * per < total
        · cases j with
          | zero =>
            cases hj
            exact (hruns hnonempty).1
          | succ j =>
            rw [show w + (j + 1) = w + 1 + j by omega]
            exact (hruns hnonempty).2.2 j worker' hj
        · refine partRuns_of_le hb (le_trans (not_lt.mp hnonempty) ?_)
          exact Nat.mul_le_mul_right per (Nat.le_add_right w j)
    · rintro ⟨hbounds, hruns⟩
      refine ⟨hbounds w le_rfl (by simp) (.inl rfl), fun hnonempty => ⟨hruns 0 worker rfl, ?_, ?_⟩⟩
      · intro v hle hlt hv
        refine hbounds v (by omega) (by rw [List.length_cons]; omega) (.inr ?_)
        rcases hv with rfl | hprevious
        · exact hnonempty
        · exact hprevious
      · intro j worker' hj
        rw [show w + 1 + j = w + (j + 1) by omega]
        exact hruns (j + 1) worker' hj

-- ---------------------------------------------------------------------------
-- A call
-- ---------------------------------------------------------------------------

/-- No index of a call on `n` texts overflows: not the count, not the bounds of a part up to
the first empty one, not the loop of a worker. -/
structure PartsFit (n nw b : Nat) : Prop where
  sum : ((n + nw : Nat) : Int) ≤ intMax
  bounds : ∀ w < nw, (w = 0 ∨ (w - 1) * sliceCount nw n < n) →
    (((w + 1) * sliceCount nw n : Nat) : Int) ≤ intMax
  steps : ∀ w < nw, StepsFit (w * sliceCount nw n) (min ((w + 1) * sliceCount nw n) n) b

/-- Every chunk of every worker is embedded. -/
def Answers (p : EmbeddingPool α) (env : Nat → Nat → ChunkEnv α) (texts : List Bytes)
    (b : Nat) : Prop :=
  ∀ w worker, p.workers[w]? = some worker → Answered worker.ctx
    (chunkCalls (env w) b (slice (sliceCount p.workers.length texts.length) texts w))

/-- With no texts counted the first part is empty. -/
theorem embedParts_nonpositive {total per bs : Int} (htotal : total ≤ 0)
    (h : embedParts env texts total per bs workers 0 = .ok (rows, workers')) : rows = [] := by
  cases workers with
  | nil =>
    cases h
    rfl
  | cons worker workers =>
    simp only [embedParts, partBounds, mulInt, addInt, bind_ok, narrow_ok, pure_ok] at h
    obtain ⟨_, ⟨_, ⟨-, rfl⟩, _, ⟨-, rfl⟩, rfl⟩, h⟩ := h
    have hempty : min ((0 : Nat) * per + per) total ≤ (0 : Nat) * per := by
      rw [Nat.cast_zero, zero_mul]
      exact (min_le_right ..).trans htotal
    rw [if_pos hempty] at h
    cases h
    rfl

omit [Inhabited α] in
theorem batchSizeOf_pos (p : EmbeddingPool α) (batchSize : Int) : 0 < p.batchSizeOf batchSize := by
  unfold batchSizeOf
  split
  · exact PoolWorker.batchSizePos _
  · omega

omit [Inhabited α] in
theorem workers_pos (p : EmbeddingPool α) : 0 < p.workers.length :=
  List.length_pos_iff.mpr p.nonempty

/-- A call that returns as many vectors as there are texts has counted them. -/
theorem total_of_complete {per : Int} (hserves : ∀ worker ∈ workers,
      worker.ctx.Serves vec ∧ worker.ctx.dim = dim)
    (hpure : ∀ w k, (env w k).backend.Pure dim vec) (hb : 0 < b) (hnw : 0 < nw)
    (hdivided : perWorker (toInt32 texts.length) (nw : Nat) = .ok per)
    (h : embedParts env texts (toInt32 texts.length) per (b : Nat) workers 0 =
      .ok (rows, workers')) (hlength : rows.length = texts.length) :
    toInt32 texts.length = texts.length := by
  by_contra hne
  have hmany : 2 ^ 31 ≤ texts.length := not_lt.mp fun hlt => hne (toInt32_eq hlt)
  have hfewer := toInt32_le texts.length
  rw [intMax] at hfewer
  rcases le_or_gt (toInt32 texts.length) 0 with hnone | hsome
  · obtain rfl := embedParts_nonpositive hnone h
    rw [List.length_nil] at hlength
    omega
  · lift toInt32 texts.length to Nat using hsome.le with total
    have htotal : 0 < total := by exact_mod_cast hsome
    obtain ⟨-, rfl⟩ := (perWorker_ok hnw).mp hdivided
    obtain ⟨hle, -⟩ := embedParts_length hserves hpure hb (sliceCount_pos hnw htotal) (by omega) h
    omega

/-- A call returns every vector at its place exactly when no index overflows and every chunk
is embedded. -/
theorem embed_complete_iff (p : EmbeddingPool α) {env : Nat → Nat → ChunkEnv α}
    (hreached : ∀ worker ∈ p.workers, worker.Reached vec dim)
    (hpure : ∀ w k, (env w k).backend.Pure dim vec) (texts : List Bytes) (batchSize : Int) :
    (∃ workers', p.embed env texts batchSize =
      .ok (texts.map fun text => vec (cstr text), workers')) ↔
    texts = [] ∨ PartsFit texts.length p.workers.length (p.batchSizeOf batchSize).toNat ∧
      p.Answers env texts (p.batchSizeOf batchSize).toNat := by
  have hserves : ∀ worker ∈ p.workers, worker.ctx.Serves vec ∧ worker.ctx.dim = dim :=
    fun worker hworker => (hreached worker hworker).serves
  have hbatch := p.batchSizeOf_pos batchSize
  lift p.batchSizeOf batchSize to Nat using hbatch.le with b hcast
  have hb : 0 < b := by exact_mod_cast hbatch
  rw [Int.toNat_natCast]
  unfold embed
  rw [← hcast]
  by_cases hempty : texts = []
  · subst hempty
    exact iff_of_true ⟨p.workers, rfl⟩ (.inl rfl)
  · have hpos : 0 < texts.length := List.length_pos_iff.mpr hempty
    have hper : 0 < sliceCount p.workers.length texts.length := sliceCount_pos p.workers_pos hpos
    rw [if_neg hempty, or_iff_right hempty]
    constructor
    · rintro ⟨workers', h⟩
      simp only [bind_ok] at h
      obtain ⟨per, hdivided, h⟩ := h
      have htotal : toInt32 texts.length = texts.length :=
        total_of_complete hserves hpure hb p.workers_pos hdivided h (by simp)
      rw [htotal] at hdivided h
      obtain ⟨hsum, rfl⟩ := (perWorker_ok p.workers_pos).mp hdivided
      obtain ⟨-, hfull⟩ := embedParts_length hserves hpure hb hper le_rfl h
      obtain ⟨hbounds, hruns⟩ := (partsRun_iff hb).mp (hfull (by simp)).1
      refine ⟨⟨by exact_mod_cast hsum, fun w hw hprevious => ?_, fun w hw => ?_⟩,
        fun w worker hw => ?_⟩
      · exact hbounds w (Nat.zero_le w) (by omega) hprevious
      · have hrun := hruns w _ (List.getElem?_eq_getElem hw)
        rw [Nat.zero_add] at hrun
        exact hrun.steps
      · have hrun := hruns w worker hw
        rw [Nat.zero_add] at hrun
        rw [slice_eq_textPart]
        exact hrun.answered
    · rintro ⟨hfits, hanswers⟩
      have hsum := hfits.sum
      have htotal : toInt32 texts.length = texts.length := by
        refine toInt32_eq ?_
        rw [intMax] at hsum
        omega
      have hdivided := (perWorker_ok p.workers_pos).mpr ⟨by exact_mod_cast hsum, rfl⟩
      have henough : texts.length ≤
          (0 + p.workers.length) * sliceCount p.workers.length texts.length := by
        rw [Nat.zero_add, Nat.mul_comm]
        exact le_sliceCount_mul p.workers_pos _
      have hparts : PartsRun env texts texts.length
          (sliceCount p.workers.length texts.length) b p.workers 0 := by
        refine (partsRun_iff hb).mpr ⟨fun v _ hv hprevious => ?_, fun w worker hw => ?_⟩
        · exact hfits.bounds v (by omega) hprevious
        · rw [Nat.zero_add]
          refine ⟨hfits.steps w (List.getElem?_eq_some_iff.mp hw).1, ?_⟩
          rw [← slice_eq_textPart]
          exact hanswers w worker hw
      obtain ⟨workers', hrun⟩ := embedParts_run hserves hpure hb hper le_rfl henough hparts
      refine ⟨workers', ?_⟩
      rw [htotal]
      dsimp only
      rw [hdivided, ok_bind, hrun, textPart, Nat.zero_mul, Nat.sub_zero, List.drop_zero,
        List.take_length]

-- ---------------------------------------------------------------------------
-- A pool of two workers
-- ---------------------------------------------------------------------------

def samplePool : EmbeddingPool Nat :=
  let worker : PoolWorker Nat := ⟨.create .onnx 2 8 0, 8, by decide⟩
  ⟨[worker, worker], List.cons_ne_nil _ _, by decide⟩

theorem samplePool_reached :
    ∀ worker ∈ samplePool.workers, worker.Reached (fun t => [t.length, t.count 0]) 2 := by
  intro worker hworker
  have hcreated : worker.ctx = .create .onnx 2 8 0 := by
    simp only [samplePool, List.mem_cons, List.not_mem_nil, or_false, or_self] at hworker
    rw [hworker]
  exact ⟨.onnx, 8, [], [], fun _ hcall => absurd hcall List.not_mem_nil, by rw [hcreated]; rfl⟩

/-- Three texts in chunks of one, with nothing that fails. -/
theorem embed_complete_iff_sample :
    PartsFit 3 2 1 ∧
      samplePool.Answers (fun _ _ => ⟨0, TextEmbedding.countingBackend⟩) [[7], [], [8, 8]] 1 := by
  have hrun : (samplePool.embed (fun _ _ => ⟨0, TextEmbedding.countingBackend⟩) [[7], [], [8, 8]] 1).map
      Prod.fst = .ok [[1, 0], [0, 0], [2, 0]] := by decide +kernel
  obtain ⟨⟨rows, workers⟩, hembed, rfl⟩ := map_ok.mp hrun
  exact ((embed_complete_iff samplePool samplePool_reached
    (fun _ _ => TextEmbedding.countingBackend_pure) [[7], [], [8, 8]] 1).mp
      ⟨workers, hembed⟩).resolve_left (List.cons_ne_nil _ _)

/-- A backend whose session fails. -/
def failingBackend : Backend Nat where
  onnxEmbed _ _ out := .ok (.returned (.onnxRuntime, out))
  llamaEmbedBatch _ _ := .ok .threw

def firstFails (w _k : Nat) : ChunkEnv Nat :=
  ⟨0, if w = 0 then failingBackend else TextEmbedding.countingBackend⟩

theorem firstFails_pure (w k : Nat) :
    (firstFails w k).backend.Pure 2 fun t => [t.length, t.count 0] := by
  unfold firstFails
  dsimp only
  split
  · refine ⟨fun _ => rfl, ?_, ?_⟩
    · rintro subset batchSize out out' - ⟨⟩
    · rintro subset out out' - ⟨⟩
  · exact TextEmbedding.countingBackend_pure

/-- The chunk of the first worker fails: one vector comes back for two texts, and it is the
vector of the second. -/
theorem failed_chunk_dropped :
    (∀ w k, (firstFails w k).backend.Pure 2 fun t => [t.length, t.count 0]) ∧
      (samplePool.embed firstFails [[7], [8, 8]] 1).map Prod.fst = .ok [[2, 0]] :=
  ⟨firstFails_pure, by decide +kernel⟩

end EmbeddingPool

end LibEmbedding
