import LibEmbedding.TextEmbedding

/-!
# The dense embedding cache is transparent

Over a backend whose vector is a function of the text, a cache in front of it
changes neither the matrix of a successful call nor what later calls return.
`TextEmbedding.Serves` is the invariant: the cache stores the vector of each
text it has.
-/

namespace LibEmbedding

open Foundation

/-- A successful call of either backend fills the buffer with the vectors of its
texts, row after row. -/
structure Backend.Pure (b : Backend α) (dim : Nat) (vec : Bytes → List α) : Prop where
  length_vec : ∀ text, (vec text).length = dim
  onnxEmbed : ∀ subset batchSize out out', out.length = subset.length * dim →
    b.onnxEmbed subset batchSize out = .ok (.returned (.ok, out')) → out' = subset.flatMap vec
  llamaEmbedBatch : ∀ subset out out', out.length = subset.length * dim →
    b.llamaEmbedBatch subset out = .ok (.returned out') → out' = subset.flatMap vec

namespace TextEmbedding

variable {α : Type} {vec : Bytes → List α} {dim : Nat} {batchSize : Int}

theorem embedSubset_pure {ctx : TextEmbedding α} {b : Backend α} (hb : b.Pure ctx.dim vec)
    (hout : out.length = subset.length * ctx.dim)
    (h : ctx.embedSubset b subset batchSize out = .ok (.returned (.ok, out'))) :
    out' = subset.flatMap vec := by
  unfold embedSubset at h
  split at h
  · rw [bind_ok] at h
    obtain ⟨outcome, hrun, h⟩ := h
    cases outcome with
    | returned buf =>
      cases h
      exact hb.llamaEmbedBatch subset out _ hout hrun
    | threw => cases h
  · exact hb.onnxEmbed subset batchSize out out' hout h

-- ---------------------------------------------------------------------------
-- The loop over the texts
-- ---------------------------------------------------------------------------

/-- What the lookup loop knows after `i` texts: each of them is a recorded miss
or already has its row. -/
structure Split.Inv (vec : Bytes → List α) (texts : List Bytes) (dim counted i : Nat)
    (s : Split α) : Prop where
  serves : s.cache.Serves fun text v => v = vec text
  length : s.data.length = texts.length * dim
  missing : s.missTexts.map some = s.missIndices.map (texts[·]?)
  served : ∀ j text, j < i → texts[j]? = some text →
    j ∈ s.missIndices ∨ row dim j s.data = vec text
  counted : s.cacheHits + s.cacheMisses = counted + i

theorem lookupText_inv {s : Split α} {texts : List Bytes} (hvec : ∀ text, (vec text).length = dim)
    (hi : i < texts.length) (h : s.Inv vec texts dim counted i) (now : Int) :
    ∃ t, lookupText now texts dim s i = .ok t ∧ t.Inv vec texts dim counted (i + 1) := by
  obtain ⟨text, htext⟩ : ∃ text, texts[i]? = some text := ⟨_, List.getElem?_eq_getElem hi⟩
  obtain ⟨hit, cache, hget, hserves, hhit⟩ := h.serves.getCopyVec now text
  simp only [lookupText, get_ok.mpr htext, ok_bind, hget]
  cases hfit : hit.filter (·.length = dim) with
  | some v =>
    have hv : v = vec text := hhit v (Option.eq_some_of_filter_eq_some hfit)
    have hlen : v.length = dim := hv ▸ hvec text
    obtain ⟨data, hdata⟩ := writeAt_row_ok h.length hi hlen
    refine ⟨{ s with data, cache, cacheHits := s.cacheHits + 1 }, by simp only [hdata]; rfl, ?_⟩
    refine ⟨hserves, (length_of_writeAt hdata).trans h.length, h.missing, ?_, ?_⟩
    · intro j t hj ht
      rcases Nat.lt_succ_iff_lt_or_eq.mp hj with hlt | rfl
      · rcases h.served j t hlt ht with hm | hrow
        · exact .inl hm
        · exact .inr ((row_of_writeAt_ne hdata hlen (by omega)).trans hrow)
      · cases htext.symm.trans ht
        exact .inr ((row_of_writeAt hdata hlen).trans hv)
    · have := h.counted
      simp only
      omega
  | none =>
    refine ⟨_, rfl, hserves, h.length, ?_, ?_, ?_⟩
    · simp [h.missing, htext]
    · intro j t hj ht
      rcases Nat.lt_succ_iff_lt_or_eq.mp hj with hlt | rfl
      · exact (h.served j t hlt ht).imp_left (List.mem_append_left _)
      · exact .inl (by simp)
    · have := h.counted
      simp only
      omega

theorem lookup_inv {texts : List Bytes} {cache : LRUCache Bytes α} (hits misses : Nat)
    (hvec : ∀ text, (vec text).length = dim) (hcache : cache.Serves fun text v => v = vec text)
    (hdata : data.length = texts.length * dim) (now : Int) :
    ∃ s, forUpTo texts.length (lookupText now texts dim)
        ⟨data, cache, [], [], hits, misses⟩ = .ok s ∧
      s.Inv vec texts dim (hits + misses) texts.length :=
  forUpTo_total (Split.Inv vec texts dim (hits + misses))
    ⟨hcache, hdata, rfl, fun _ _ hj => absurd hj (Nat.not_lt_zero _), rfl⟩
    fun _ _ hi hs => lookupText_inv hvec hi hs now

-- ---------------------------------------------------------------------------
-- The loop over the misses
-- ---------------------------------------------------------------------------

/-- What the scatter loop knows after `k` misses: each text still to come is a
later miss, the others have their rows. -/
structure ScatterInv (vec : Bytes → List α) (texts : List Bytes) (dim : Nat) (idxs : List Nat)
    (k : Nat) (s : List α × LRUCache Bytes α) : Prop where
  serves : s.2.Serves fun text v => v = vec text
  length : s.1.length = texts.length * dim
  served : ∀ j text, texts[j]? = some text → j ∈ idxs.drop k ∨ row dim j s.1 = vec text

theorem scatterMiss_inv {texts missTexts : List Bytes} (hvec : ∀ text, (vec text).length = dim)
    (hmiss : missTexts.map some = idxs.map (texts[·]?)) (hk : k < idxs.length)
    (h : ScatterInv vec texts dim idxs k s) (now : Int) :
    ∃ t, scatterMiss now texts dim (missTexts.flatMap vec) idxs s k = .ok t ∧
      ScatterInv vec texts dim idxs (k + 1) t := by
  have hlen : missTexts.length = idxs.length := by simpa using congrArg List.length hmiss
  obtain ⟨text, htext⟩ : ∃ text, missTexts[k]? = some text :=
    ⟨_, List.getElem?_eq_getElem (hlen ▸ hk)⟩
  obtain ⟨i, hi⟩ : ∃ i, idxs[k]? = some i := ⟨_, List.getElem?_eq_getElem hk⟩
  have hit : texts[i]? = some text := by
    have := congrArg (·[k]?) hmiss
    simpa [htext, hi] using this.symm
  have hbuf : (missTexts.flatMap vec).length = missTexts.length * dim :=
    length_flatMap fun x _ => hvec x
  have hrow : row dim k (missTexts.flatMap vec) = vec text := row_flatMap (fun x _ => hvec x) htext
  have hin : i < texts.length := (List.getElem?_eq_some_iff.mp hit).1
  obtain ⟨data, hdata⟩ := writeAt_row_ok h.length hin (hvec text)
  obtain ⟨cache, hput, hserves⟩ := h.serves.put now (rfl : vec text = vec text)
  refine ⟨(data, cache), ?_, hserves, (length_of_writeAt hdata).trans h.length, ?_⟩
  · simp only [scatterMiss, get_ok.mpr hi, ok_bind, readAt_row hbuf (hlen ▸ hk), hrow, hdata,
      get_ok.mpr hit, hput]
    rfl
  · intro j t ht
    by_cases hj : i = j
    · subst hj
      cases hit.symm.trans ht
      exact .inr (row_of_writeAt hdata (hvec text))
    · rw [row_of_writeAt_ne hdata (hvec text) hj]
      refine (h.served j t ht).imp_left fun hm => ?_
      rw [List.drop_eq_getElem_cons hk, List.mem_cons] at hm
      have hik : idxs[k] = i := (List.getElem?_eq_some_iff.mp hi).2
      exact hm.resolve_left fun heq => hj (hik.symm.trans heq.symm)

/-- After the scatter every row is the vector of its text. -/
theorem scatter_total {texts missTexts : List Bytes} (hvec : ∀ text, (vec text).length = dim)
    (hmiss : missTexts.map some = idxs.map (texts[·]?)) (h : ScatterInv vec texts dim idxs 0 s)
    (now : Int) :
    ∃ cache, forUpTo idxs.length (scatterMiss now texts dim (missTexts.flatMap vec) idxs) s =
      .ok (texts.flatMap vec, cache) ∧ cache.Serves fun text v => v = vec text := by
  obtain ⟨⟨data, cache⟩, hrun, hend⟩ := forUpTo_total (ScatterInv vec texts dim idxs) h
    fun k s hk hs => scatterMiss_inv hvec hmiss hk hs now
  have hrows : data = texts.flatMap vec := by
    refine eq_flatMap (fun x _ => hvec x) hend.length fun j text htext => ?_
    exact (hend.served j text htext).resolve_left (by simp)
  exact ⟨cache, hrows ▸ hrun, hend.serves⟩

-- ---------------------------------------------------------------------------
-- One call
-- ---------------------------------------------------------------------------

/-- The cache, if there is one, stores vectors of their texts only. -/
def Serves (vec : Bytes → List α) (ctx : TextEmbedding α) : Prop :=
  ∀ cache, ctx.cache = some cache → cache.Serves fun text v => v = vec text

/-- What a call leaves behind and reports. -/
structure Answers (vec : Bytes → List α) (call : EmbedCall α) (ctx : TextEmbedding α)
    (reply : EmbedReply α) (ctx' : TextEmbedding α) : Prop where
  serves : ctx'.Serves vec
  dim : ctx'.dim = ctx.dim
  cached : ctx'.cache.isSome = ctx.cache.isSome
  matrix : reply.status = .ok →
    reply.result = some ⟨some (call.texts.flatMap vec), call.texts.length, ctx.dim⟩
  counted : ctx.cache.isSome → ctx'.cacheHits + ctx'.cacheMisses =
    ctx.cacheHits + ctx.cacheMisses + call.texts.length

theorem exceptionStatus_ne_ok (ctx : TextEmbedding α) : ctx.exceptionStatus ≠ .ok := by
  unfold exceptionStatus
  split <;> simp

theorem finish_ok {ctx : TextEmbedding α}
    (h : ctx.finish n ran batchSize data = .ok (reply, ctx')) :
    reply = ⟨.ok, some ⟨some data, n, ctx.dim⟩⟩ ∧ ctx'.dim = ctx.dim ∧ ctx'.cache = ctx.cache ∧
      ctx'.cacheHits = ctx.cacheHits ∧ ctx'.cacheMisses = ctx.cacheMisses := by
  rw [finish, bind_ok] at h
  obtain ⟨count, -, h⟩ := h
  cases h
  exact ⟨rfl, rfl, rfl, rfl, rfl⟩

theorem create_serves (vec : Bytes → List α) (backendType : BackendType) (dim : Nat)
    (batchSize cacheSize : Int) :
    (create backendType dim batchSize cacheSize : TextEmbedding α).Serves vec := by
  intro cache hc
  simp only [create, Option.ite_none_right_eq_some, Option.some.injEq] at hc
  obtain ⟨-, rfl⟩ := hc
  exact .new _ _ 0

theorem embedAll_answers {ctx : TextEmbedding α} {call : EmbedCall α}
    (hb : call.backend.Pure ctx.dim vec) (hc : ctx.cache = none)
    (hdata : data.length = call.texts.length * ctx.dim)
    (h : ctx.embedAll call batchSize data = .ok (reply, ctx')) :
    Answers vec call ctx reply ctx' := by
  rw [embedAll, bind_ok] at h
  obtain ⟨outcome, hrun, h⟩ := h
  have hsame : ctx.Serves vec := by simp [Serves, hc]
  cases outcome with
  | threw =>
    cases h
    exact ⟨hsame, rfl, rfl, fun hok => absurd hok (exceptionStatus_ne_ok _), by simp [hc]⟩
  | returned r =>
    obtain ⟨status, buf⟩ := r
    by_cases hok : status = .ok
    · subst hok
      have hbuf : buf = call.texts.flatMap vec := embedSubset_pure hb hdata hrun
      obtain ⟨rfl, hdim, hcache, -, -⟩ := finish_ok h
      exact ⟨by simp [Serves, hcache, hc], hdim, by rw [hcache], fun _ => by rw [hbuf],
        by simp [hc]⟩
    · simp only [if_neg hok, pure_ok] at h
      cases h
      exact ⟨hsame, rfl, rfl, fun h => absurd h hok, by simp [hc]⟩

variable [Inhabited α]

theorem embedThrough_answers {ctx : TextEmbedding α} {cache : LRUCache Bytes α}
    {call : EmbedCall α}
    (hb : call.backend.Pure ctx.dim vec) (hserves : ctx.Serves vec) (hc : ctx.cache = some cache)
    (hdata : data.length = call.texts.length * ctx.dim)
    (h : ctx.embedThrough cache call batchSize data = .ok (reply, ctx')) :
    Answers vec call ctx reply ctx' := by
  obtain ⟨split, hsplit, hinv⟩ := lookup_inv ctx.cacheHits ctx.cacheMisses
    hb.length_vec (hserves cache hc) hdata call.now
  have hcount := hinv.counted
  simp only [embedThrough, hsplit, ok_bind] at h
  by_cases hnone : split.missTexts = []
  · rw [if_pos hnone] at h
    obtain ⟨rfl, hdim, hcache, hhits, hmisses⟩ := finish_ok h
    have hidx : split.missIndices = [] := by simpa [hnone] using hinv.missing.symm
    have hrows : split.data = call.texts.flatMap vec :=
      eq_flatMap (fun x _ => hb.length_vec x) hinv.length fun j text ht =>
        (hinv.served j text (List.getElem?_eq_some_iff.mp ht).1 ht).resolve_left (by simp [hidx])
    refine ⟨?_, hdim, by simp [hcache, hc], fun _ => by rw [hrows], fun _ => ?_⟩
    · intro c' hc'
      cases hcache.symm.trans hc'
      exact hinv.serves
    · rw [hhits, hmisses]
      exact hcount
  · rw [if_neg hnone, bind_ok] at h
    obtain ⟨outcome, hrun, h⟩ := h
    cases outcome with
    | threw =>
      cases h
      refine ⟨?_, rfl, by simp [hc], fun hok => absurd hok (exceptionStatus_ne_ok _),
        fun _ => hcount⟩
      rintro c' ⟨⟩
      exact hinv.serves
    | returned r =>
      obtain ⟨status, buf⟩ := r
      by_cases hok : status = .ok
      · subst hok
        have hbuf : buf = split.missTexts.flatMap vec :=
          embedSubset_pure hb (length_malloc _) hrun
        have hstart : ScatterInv vec call.texts ctx.dim split.missIndices 0
            (split.data, split.cache) :=
          ⟨hinv.serves, hinv.length, fun j text ht =>
            hinv.served j text (List.getElem?_eq_some_iff.mp ht).1 ht⟩
        obtain ⟨cache', hscatter, hcache'⟩ :=
          scatter_total hb.length_vec hinv.missing hstart call.now
        simp only [if_pos, hbuf, hscatter, ok_bind] at h
        obtain ⟨rfl, hdim, hcache, hhits, hmisses⟩ := finish_ok h
        refine ⟨?_, hdim, by simp [hcache, hc], fun _ => rfl, fun _ => ?_⟩
        · intro c' hc'
          cases hcache.symm.trans hc'
          exact hcache'
        · rw [hhits, hmisses]
          exact hcount
      · simp only [if_neg hok, pure_ok] at h
        cases h
        refine ⟨?_, rfl, by simp [hc], fun h => absurd h hok, fun _ => hcount⟩
        rintro c' ⟨⟩
        exact hinv.serves

/-- One call from a context whose cache stores vectors only. -/
theorem embed_answers {ctx : TextEmbedding α} {call : EmbedCall α}
    (hb : call.backend.Pure ctx.dim vec) (hserves : ctx.Serves vec)
    (h : ctx.embed call = .ok (reply, ctx')) : Answers vec call ctx reply ctx' := by
  unfold embed at h
  split at h
  · rename_i hzero
    cases h
    exact ⟨hserves, rfl, rfl, fun h => by simp at h, fun _ => by simp [hzero]⟩
  · cases hc : ctx.cache with
    | some cache =>
      simp only [hc] at h
      exact embedThrough_answers hb hserves hc (length_malloc _) h
    | none =>
      simp only [hc] at h
      exact embedAll_answers hb hc (length_malloc _) h

-- ---------------------------------------------------------------------------
-- Histories
-- ---------------------------------------------------------------------------

theorem run_serves {ctx : TextEmbedding α} {calls : List (EmbedCall α)}
    (hb : ∀ call ∈ calls, call.backend.Pure ctx.dim vec) (hserves : ctx.Serves vec)
    (h : run calls ctx = .ok (replies, ctx')) :
    ctx'.Serves vec ∧ ctx'.dim = ctx.dim ∧ ctx'.cache.isSome = ctx.cache.isSome := by
  induction calls generalizing ctx replies with
  | nil =>
    cases h
    exact ⟨hserves, rfl, rfl⟩
  | cons call calls ih =>
    simp only [run, bind_ok] at h
    obtain ⟨⟨reply, mid⟩, hcall, ⟨rest, last⟩, hrest, h⟩ := h
    cases h
    have hstep := embed_answers (hb call List.mem_cons_self) hserves hcall
    have hmid : ∀ c ∈ calls, c.backend.Pure mid.dim vec := fun c hc => by
      rw [hstep.dim]
      exact hb c (List.mem_cons_of_mem call hc)
    obtain ⟨hs, hd, hc⟩ := ih hmid hstep.serves hrest
    exact ⟨hs, hd.trans hstep.dim, hc.trans hstep.cached⟩

/-- A backend that embeds a text as its length and its number of zero bytes. -/
def countingBackend : Backend Nat where
  onnxEmbed subset _ _ := .ok (.returned (.ok, subset.flatMap fun t => [t.length, t.count 0]))
  llamaEmbedBatch subset _ := .ok (.returned (subset.flatMap fun t => [t.length, t.count 0]))

theorem countingBackend_pure : countingBackend.Pure 2 fun t => [t.length, t.count 0] where
  length_vec _ := rfl
  onnxEmbed := by
    rintro subset batchSize out out' - ⟨⟩
    rfl
  llamaEmbedBatch := by
    rintro subset out out' - ⟨⟩
    rfl

end TextEmbedding

end LibEmbedding
