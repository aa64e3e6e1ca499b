import LibEmbedding.Foundation.Scatter
import LibEmbedding.LlamaSubmissions

/-!
# Texts embedded in the order of their lengths

`embed_batch_bucketed` sorts the texts by their number of tokens, embeds them batch after batch
and puts each vector back to the place of its text. A pool has created all its contexts alike, so
the vector of a text does not depend on the context it comes to.
-/

namespace LibEmbedding

open Foundation

namespace LlamaPool

/-- All contexts of the pool were created with the same parameters. -/
def Uniform (p : LlamaPool) : Prop := ∃ n params, p.contexts = List.replicate n params

theorem loadFromFile_uniform {nCtx : Int}
    (h : loadFromFile cpp modelPath nSessions numThreads nCtx nGpuLayers nBatch = .returned p) :
    p.Uniform := by
  obtain ⟨model, params, n, -, rfl⟩ := loadFromFile_spec h
  exact ⟨n + 1, params, rfl⟩

/-- A pool as it was constructed or as it was loaded, after any calls. -/
def Opened (q : LlamaPool) : Prop :=
  ∃ p : LlamaPool, p.Continues q ∧ (p = new ∨
    ∃ cpp modelPath nSessions numThreads nCtx nGpuLayers nBatch,
      loadFromFile cpp modelPath nSessions numThreads nCtx nGpuLayers nBatch = .returned p)

theorem Opened.uniform {q : LlamaPool} (h : q.Opened) : q.Uniform := by
  obtain ⟨p, ⟨k, rfl⟩, rfl | ⟨_, _, _, _, _, _, _, h⟩⟩ := h
  · exact ⟨0, ⟨0, 0, none⟩, rfl⟩
  · obtain ⟨n, params, hcontexts⟩ := loadFromFile_uniform h
    exact ⟨n, params, hcontexts⟩

/-- The vector of a text of a list, which ends at its first NUL. -/
def vectorOf (p : LlamaPool) (text : Bytes) : Except Stop (List ℚ) :=
  (p.embed (cstr text)).result.map Prod.fst

/-- The vector where there is one. -/
def vec (p : LlamaPool) (text : Bytes) : List ℚ :=
  match p.vectorOf text with
  | .ok v => v
  | .error _ => []

def Embeds (p : LlamaPool) (text : Bytes) : Prop := p.vectorOf text = .ok (p.vec text)

variable {p q : LlamaPool} {texts : List Bytes}

theorem vectorOf_ok : p.vectorOf text = .ok v ↔ p.Embeds text ∧ v = p.vec text := by
  unfold Embeds vec
  cases h : p.vectorOf text with
  | ok w => simp [eq_comm]
  | error stop => simp

theorem vectorOf_eq (p : LlamaPool) (text : Bytes) : p.vectorOf text =
    match p.contexts[p.nextIdx % p.contexts.length]?, p.model with
    | some params, some model => p.tokenize (cstr text) >>= fun r =>
      embeddingOf p.nEmbd (model.encode params r.2)
    | _, _ => .error .threw := by
  unfold vectorOf embed
  cases p.contexts[p.nextIdx % p.contexts.length]? with
  | none => rfl
  | some params =>
    cases p.model with
    | none => rfl
    | some model =>
      dsimp only
      rw [Logged.result_bind, Logged.result_lift]
      cases p.tokenize (cstr text) with
      | error stop => rfl
      | ok r =>
        rw [ok_bind, ok_bind, Logged.bind_of_ok rfl, Logged.result_bind, Logged.result_lift]
        cases embeddingOf p.nEmbd (model.encode params r.2) with
        | error stop => rfl
        | ok v => rfl

/-- Whatever calls came before, the vector of a text is the same. -/
theorem vectorOf_continues (hp : p.Uniform) (hq : p.Continues q) :
    q.vectorOf text = p.vectorOf text := by
  obtain ⟨k, rfl⟩ := hq
  obtain ⟨n, params, hcontexts⟩ := hp
  rw [vectorOf_eq, vectorOf_eq]
  simp only [hcontexts, List.length_replicate]
  rcases Nat.eq_zero_or_pos n with rfl | hn
  · rfl
  · rw [List.getElem?_replicate, List.getElem?_replicate, if_pos (Nat.mod_lt k hn),
      if_pos (Nat.mod_lt p.nextIdx hn)]
    rfl

theorem embeds_of_embed (hp : p.Uniform) (hq : p.Continues q) {r : List ℚ × LlamaPool}
    (h : (q.embed (cstr text)).result = .ok r) : p.Embeds text ∧ r.1 = p.vec text := by
  have hvector : q.vectorOf text = .ok r.1 := by
    rw [vectorOf, h]
    rfl
  rw [vectorOf_continues hp hq] at hvector
  exact vectorOf_ok.mp hvector

theorem embed_total (hp : p.Uniform) (hq : p.Continues q) (h : p.Embeds text) :
    ∃ q', (q.embed (cstr text)).result = .ok (p.vec text, q') ∧ p.Continues q' := by
  have hvector : q.vectorOf text = .ok (p.vec text) := (vectorOf_continues hp hq).trans h
  unfold vectorOf at hvector
  cases hr : (q.embed (cstr text)).result with
  | error stop =>
    rw [hr] at hvector
    cases hvector
  | ok r =>
    obtain ⟨-, hvec⟩ := embeds_of_embed hp hq hr
    exact ⟨r.2, by rw [← hvec], hq.trans (embed_continues hr)⟩

/-- A text with a vector has a number of tokens. -/
theorem tokenizeLength_total (h : p.Embeds text) : ∃ n, p.tokenizeLength text = .ok n := by
  unfold Embeds at h
  rw [vectorOf_eq] at h
  split at h
  · obtain ⟨r, hr, -⟩ := bind_ok.mp h
    exact ⟨r.1.toNat, by rw [tokenizeLength, hr]; rfl⟩
  · cases h

-- ---------------------------------------------------------------------------
-- `embed_batch`
-- ---------------------------------------------------------------------------

/-- What an iteration of the loop of `embed_batch` returns. -/
def embedNext (s : List (List ℚ) × LlamaPool) (text : Bytes) :
    Except Stop (List (List ℚ) × LlamaPool) :=
  (s.2.embed (cstr text)).result.map fun e => (s.1 ++ [e.1], e.2)

theorem result_embedBatch (q : LlamaPool) (texts : List Bytes) :
    (q.embedBatch texts).result = texts.foldlM embedNext ([], q) := by
  unfold embedBatch
  rw [Logged.result_foldlM]
  congr 1
  funext s text
  rw [Logged.result_bind, embedNext]
  cases (s.2.embed (cstr text)).result with
  | error stop => rfl
  | ok e => rfl

theorem embedNext_ok {s t : List (List ℚ) × LlamaPool} (hp : p.Uniform) (hs : p.Continues s.2)
    (h : embedNext s text = .ok t) : p.Embeds text ∧ p.Continues t.2 := by
  unfold embedNext at h
  cases hembed : (s.2.embed (cstr text)).result with
  | error stop =>
    rw [hembed] at h
    cases h
  | ok e =>
    rw [hembed] at h
    cases h
    exact ⟨(embeds_of_embed hp hs hembed).1, hs.trans (embed_continues hembed)⟩

theorem embedLoop_total {s : List (List ℚ) × LlamaPool} (hp : p.Uniform) (hs : p.Continues s.2)
    (h : ∀ t ∈ texts, p.Embeds t) :
    ∃ q, texts.foldlM embedNext s = .ok (s.1 ++ texts.map p.vec, q) ∧ p.Continues q := by
  induction texts generalizing s with
  | nil => exact ⟨s.2, by rw [List.map_nil, List.append_nil]; rfl, hs⟩
  | cons text texts ih =>
    obtain ⟨q₁, hembed, hq₁⟩ := embed_total hp hs (h text List.mem_cons_self)
    have hnext : embedNext s text = .ok (s.1 ++ [p.vec text], q₁) := by
      rw [embedNext, hembed]
      rfl
    obtain ⟨q₂, hrest, hq₂⟩ := ih (s := (s.1 ++ [p.vec text], q₁)) hq₁ fun t ht =>
      h t (List.mem_cons_of_mem text ht)
    refine ⟨q₂, ?_, hq₂⟩
    rw [List.foldlM_cons, hnext, ok_bind, hrest, List.map_cons, List.append_assoc]
    rfl

theorem embeds_of_embedLoop {s r : List (List ℚ) × LlamaPool} (hp : p.Uniform)
    (hs : p.Continues s.2) (h : texts.foldlM embedNext s = .ok r) : ∀ t ∈ texts, p.Embeds t := by
  induction texts generalizing s with
  | nil => exact fun t ht => absurd ht List.not_mem_nil
  | cons text texts ih =>
    rw [List.foldlM_cons] at h
    obtain ⟨t, hnext, hrest⟩ := bind_ok.mp h
    obtain ⟨hembeds, ht⟩ := embedNext_ok hp hs hnext
    exact List.forall_mem_cons.mpr ⟨hembeds, ih ht hrest⟩

theorem embedBatch_total (hp : p.Uniform) (hq : p.Continues q) (h : ∀ t ∈ texts, p.Embeds t) :
    ∃ q', (q.embedBatch texts).result = .ok (texts.map p.vec, q') ∧ p.Continues q' := by
  rw [result_embedBatch]
  exact embedLoop_total (s := ([], q)) hp hq h

theorem embeds_of_embedBatch (hp : p.Uniform) (hq : p.Continues q)
    {r : List (List ℚ) × LlamaPool} (h : (q.embedBatch texts).result = .ok r) :
    ∀ t ∈ texts, p.Embeds t := by
  rw [result_embedBatch] at h
  exact embeds_of_embedLoop (s := ([], q)) hp hq h

-- ---------------------------------------------------------------------------
-- `embed_batch_bucketed`
-- ---------------------------------------------------------------------------

/-- The vectors of the texts of a batch, each with the place it goes to. -/
def filed (p : LlamaPool) (batch : List (Nat × Bytes)) : List (Nat × List ℚ) :=
  batch.map fun e => (e.1, p.vec e.2)

/-- The result as it will be once the batch that is being collected is embedded. -/
def Bucketing.settled (p : LlamaPool) (s : Bucketing) : List (List ℚ) :=
  scatter (p.filed s.batch) s.out

/-- The collected texts have vectors and places in the result. -/
structure Bucketing.Fileable (p : LlamaPool) (n : Nat) (s : Bucketing) : Prop where
  pool : p.Continues s.pool
  batch : ∀ e ∈ s.batch, p.Embeds e.2 ∧ e.1 < n
  length : s.out.length = n

theorem Bucketing.settled_nil {s : Bucketing} (h : s.batch = []) : s.settled p = s.out := by
  rw [settled, h]
  rfl

/-- A step embeds the collected texts or collects one more: either way its text is filed. -/
theorem bucket_total (hp : p.Uniform) {s : Bucketing} (hs : s.Fileable p n)
    (entry : (Nat × Bytes) × Nat) (hembeds : p.Embeds entry.1.2) (hplace : entry.1.1 < n)
    (total : Nat) (batchSize : Int) :
    ∃ t, (bucket total batchSize s entry).result = .ok t ∧ t.Fileable p n ∧
      t.settled p = scatter (p.filed [entry.1]) (s.settled p) ∧
      (entry.2 + 1 = total → t.batch = []) := by
  have hbatch : ∀ e ∈ s.batch ++ [entry.1], p.Embeds e.2 ∧ e.1 < n := by
    intro e he
    rcases List.mem_append.mp he with hold | hnew
    · exact hs.batch e hold
    · cases List.mem_singleton.mp hnew
      exact ⟨hembeds, hplace⟩
  have hsettled : scatter (p.filed (s.batch ++ [entry.1])) s.out =
      scatter (p.filed [entry.1]) (s.settled p) := by
    rw [filed, List.map_append, scatter_append]
    rfl
  unfold bucket
  dsimp only
  split
  · have htexts : ∀ t ∈ (s.batch ++ [entry.1]).map Prod.snd, p.Embeds t := by
      intro t ht
      obtain ⟨e, he, rfl⟩ := List.mem_map.mp ht
      exact (hbatch e he).1
    obtain ⟨q, hvectors, hq⟩ := embedBatch_total hp hs.pool htexts
    have hplaces : ∀ j ∈ (s.batch ++ [entry.1]).map Prod.fst, j < s.out.length := by
      intro j hj
      obtain ⟨e, he, rfl⟩ := List.mem_map.mp hj
      exact hs.length ▸ (hbatch e he).2
    have hlen : (((s.batch ++ [entry.1]).map Prod.snd).map p.vec).length =
        ((s.batch ++ [entry.1]).map Prod.fst).length := by simp only [List.length_map]
    have hwrites := forUpTo_scatter hlen hplaces
    rw [List.map_map, List.zip_map', List.length_map] at hwrites
    rw [Logged.result_bind, hvectors, ok_bind, Logged.result_bind, Logged.result_lift,
      List.map_map, hwrites]
    refine ⟨_, rfl, ⟨hq, nofun, ?_⟩, ?_, fun _ => rfl⟩
    · exact (length_scatter _ _).trans hs.length
    · exact hsettled
  · rename_i hmore
    refine ⟨_, rfl, ⟨hs.pool, hbatch, hs.length⟩, hsettled, fun hlast => ?_⟩
    exact absurd (.inr hlast) hmore

theorem buckets_total (hp : p.Uniform) {total : Nat} (batchSize : Int) {es : List (Nat × Bytes)}
    {k : Nat} {s : Bucketing} (hs : s.Fileable p n) (hcount : k + es.length = total)
    (hend : es = [] → s.batch = []) (hes : ∀ e ∈ es, p.Embeds e.2 ∧ e.1 < n) :
    ∃ t, ((es.zipIdx k).foldlM (bucket total batchSize) s).result = .ok t ∧
      t.out = scatter (p.filed es) (s.settled p) := by
  induction es generalizing k s with
  | nil => exact ⟨s, rfl, (Bucketing.settled_nil (hend rfl)).symm⟩
  | cons e es ih =>
    rw [List.length_cons] at hcount
    obtain ⟨hembeds, hplace⟩ := hes e List.mem_cons_self
    obtain ⟨t, hstep, ht, hsettled, hlast⟩ :=
      bucket_total hp hs (e, k) hembeds hplace total batchSize
    obtain ⟨u, hrest, hout⟩ := ih ht (k := k + 1) (by omega)
      (fun hnil => hlast (by rw [hnil, List.length_nil] at hcount; omega))
      fun e' he' => hes e' (List.mem_cons_of_mem e he')
    refine ⟨u, ?_, ?_⟩
    · rw [List.zipIdx_cons, List.foldlM_cons, Logged.result_bind, hstep, ok_bind, hrest]
    · rw [hout, hsettled, ← scatter_append]
      rfl

/-- A run that ends has embedded every text it collected. -/
theorem embeds_of_buckets (hp : p.Uniform) {total : Nat} {batchSize : Int}
    {es : List (Nat × Bytes)} {k : Nat} {s t : Bucketing} (hs : p.Continues s.pool)
    (hcount : k + es.length = total) (hend : es = [] → s.batch = [])
    (h : ((es.zipIdx k).foldlM (bucket total batchSize) s).result = .ok t) :
    ∀ e ∈ s.batch ++ es, p.Embeds e.2 := by
  induction es generalizing k s with
  | nil =>
    rw [hend rfl]
    exact fun e he => absurd he List.not_mem_nil
  | cons e es ih =>
    rw [List.length_cons] at hcount
    rw [List.zipIdx_cons, List.foldlM_cons, Logged.result_bind] at h
    obtain ⟨u, hu, hrest⟩ := bind_ok.mp h
    unfold bucket at hu
    dsimp only at hu
    split at hu
    · rw [Logged.result_bind] at hu
      obtain ⟨r, hr, hu⟩ := bind_ok.mp hu
      rw [Logged.result_bind] at hu
      obtain ⟨out, -, hu⟩ := bind_ok.mp hu
      cases hu
      have hbatch := embeds_of_embedBatch hp hs hr
      have hlater := ih (hs.trans (embedBatch_continues hr)) (k := k + 1) (by omega)
        (fun _ => rfl) hrest
      intro e' he'
      rw [List.append_cons] at he'
      rcases List.mem_append.mp he' with hold | hnew
      · exact hbatch e'.2 (List.mem_map_of_mem hold)
      · exact hlater e' hnew
    · rename_i hmore
      cases hu
      have hlater := ih (s := ⟨s.out, s.batch ++ [e], s.pool⟩) hs (k := k + 1) (by omega)
        (fun hnil => by
          rw [hnil, List.length_nil] at hcount
          exact absurd (.inr hcount) hmore) hrest
      rwa [List.append_assoc] at hlater

/-- The order of the texts that a sorter makes of their lengths. -/
theorem order_perm (sorter : SortImpl) (texts : List Bytes) {lengths : List Nat}
    (hlen : lengths.length = texts.length) : ∃ order,
      sorter.sort (fun a b : (Nat × Bytes) × Nat => decide (a.2 < b.2))
        ((texts.zipIdx.map Prod.swap).zip lengths) = .ok order ∧
      (order.map Prod.fst).Perm (texts.zipIdx.map Prod.swap) := by
  obtain ⟨order, hsort, hperm, -⟩ := sorter.sort_spec _ _
    (StrictWeak.of_key (fun e : (Nat × Bytes) × Nat => e.2)
      ((texts.zipIdx.map Prod.swap).zip lengths))
  refine ⟨order, hsort, ?_⟩
  have hfst := hperm.map Prod.fst
  rwa [List.map_fst_zip (by simp [hlen])] at hfst

theorem mem_placed {texts : List Bytes} {e : Nat × Bytes}
    (h : e ∈ texts.zipIdx.map Prod.swap) : e.1 < texts.length ∧ e.2 ∈ texts := by
  obtain ⟨⟨text, j⟩, hmem, rfl⟩ := List.mem_map.mp h
  have hget := List.mem_zipIdx_iff_getElem?.mp hmem
  exact ⟨(List.getElem?_eq_some_iff.mp hget).1, List.mem_of_getElem? hget⟩

/-- What the comparison of the sort sees of the texts. -/
def bucketLengths (p : LlamaPool) (texts : List Bytes) : Except Stop (List Nat) :=
  if 1 < texts.length then texts.mapM p.tokenizeLength else .ok (texts.map fun _ => 0)

theorem length_of_bucketLengths (h : p.bucketLengths texts = .ok lengths) :
    lengths.length = texts.length := by
  unfold bucketLengths at h
  split at h
  · exact length_of_mapM h
  · cases h
    exact List.length_map _

theorem bucketLengths_total (h : ∀ t ∈ texts, p.Embeds t) :
    ∃ lengths, p.bucketLengths texts = .ok lengths := by
  unfold bucketLengths
  split
  · exact mapM_total_iff.mpr fun t ht => tokenizeLength_total (h t ht)
  · exact ⟨_, rfl⟩

/-- Once the texts are in order the buckets decide. -/
theorem embedBatchBucketed_eq (sorter : SortImpl) {batchSize : Int} (hb : 1 ≤ batchSize)
    (hne : texts ≠ []) (hlengths : p.bucketLengths texts = .ok lengths) :
    ∃ placed : List (Nat × Bytes), placed.Perm (texts.zipIdx.map Prod.swap) ∧
      (p.embedBatchBucketed sorter texts batchSize).result =
        ((placed.zipIdx).foldlM (bucket texts.length batchSize)
          ⟨List.replicate texts.length [], [], p⟩).result.map Bucketing.out := by
  obtain ⟨order, hsort, hperm⟩ := order_perm sorter texts (length_of_bucketLengths hlengths)
  refine ⟨order.map Prod.fst, hperm, ?_⟩
  have hlift : (Logged.lift (if 1 < texts.length then texts.mapM p.tokenizeLength
      else .ok (texts.map fun _ => 0)) : LlamaCall (List Nat)) = Logged.lift (.ok lengths) :=
    congrArg Logged.lift hlengths
  unfold embedBatchBucketed
  rw [if_neg hne, hlift, Logged.lift_bind rfl, hsort,
    Logged.lift_bind (ofChecked_ok.mpr rfl), if_neg (by omega), Logged.result_bind]
  cases ((order.map Prod.fst).zipIdx.foldlM (bucket texts.length batchSize)
      ⟨List.replicate texts.length [], [], p⟩).result with
  | error stop => rfl
  | ok s => rfl

theorem embedBatchBucketed_total (hp : p.Uniform) (sorter : SortImpl) {batchSize : Int}
    (hb : 1 ≤ batchSize) (h : ∀ t ∈ texts, p.Embeds t) :
    (p.embedBatchBucketed sorter texts batchSize).result = .ok (texts.map p.vec) := by
  by_cases hne : texts = []
  · rw [embedBatchBucketed, if_pos hne, hne]
    rfl
  obtain ⟨lengths, hlengths⟩ := bucketLengths_total h
  obtain ⟨placed, hperm, heq⟩ := embedBatchBucketed_eq sorter hb hne hlengths
  have hlen : 0 + placed.length = texts.length := by
    rw [Nat.zero_add, hperm.length_eq, List.length_map, List.length_zipIdx]
  obtain ⟨t, hrun, hout⟩ := buckets_total (n := texts.length) (s := ⟨_, [], p⟩) hp batchSize
    ⟨.refl p, nofun, List.length_replicate⟩ hlen (fun _ => rfl) fun e he => by
      obtain ⟨hplace, hmem⟩ := mem_placed (hperm.mem_iff.mp he)
      exact ⟨h e.2 hmem, hplace⟩
  rw [heq, hrun]
  refine congrArg Except.ok (hout.trans ?_)
  refine scatter_perm ?_ ((length_scatter _ _).trans (by simp))
  have hfiled := hperm.map fun e => (e.1, p.vec e.2)
  have hplaces : (texts.zipIdx.map Prod.swap).map (fun e => (e.1, p.vec e.2)) =
      (texts.map p.vec).zipIdx.map Prod.swap := by
    rw [List.zipIdx_map, List.map_map, List.map_map]
    rfl
  rwa [hplaces] at hfiled

theorem embeds_of_bucketed (hp : p.Uniform) (sorter : SortImpl) {batchSize : Int}
    (hb : 1 ≤ batchSize) (h : (p.embedBatchBucketed sorter texts batchSize).result = .ok vs) :
    ∀ t ∈ texts, p.Embeds t := by
  by_cases hne : texts = []
  · rw [hne]
    exact fun t ht => absurd ht List.not_mem_nil
  obtain ⟨lengths, hlengths⟩ : ∃ lengths, p.bucketLengths texts = .ok lengths := by
    unfold embedBatchBucketed at h
    rw [if_neg hne, Logged.result_bind] at h
    obtain ⟨lengths, hlengths, -⟩ := bind_ok.mp h
    exact ⟨lengths, hlengths⟩
  obtain ⟨placed, hperm, heq⟩ := embedBatchBucketed_eq sorter hb hne hlengths
  have hlen : 0 + placed.length = texts.length := by
    rw [Nat.zero_add, hperm.length_eq, List.length_map, List.length_zipIdx]
  rw [heq] at h
  cases hrun : (placed.zipIdx.foldlM (bucket texts.length batchSize)
      ⟨List.replicate texts.length [], [], p⟩).result with
  | error stop =>
    rw [hrun] at h
    cases h
  | ok t =>
    have hall := embeds_of_buckets (s := ⟨_, [], p⟩) hp (.refl p) hlen (fun _ => rfl) hrun
    intro text htext
    obtain ⟨j, hj⟩ := List.getElem?_of_mem htext
    have hplaced : (j, text) ∈ texts.zipIdx.map Prod.swap :=
      List.mem_map.mpr ⟨(text, j), List.mem_zipIdx_iff_getElem?.mpr hj, rfl⟩
    exact hall (j, text) (hperm.mem_iff.mpr hplaced)

/-- Both ways of embedding a list return the same vectors in the same places, or neither
returns. -/
theorem bucketed_iff (hp : p.Uniform) (sorter : SortImpl) {batchSize : Int} (hb : 1 ≤ batchSize)
    (texts : List Bytes) (vs : List (List ℚ)) :
    (p.embedBatchBucketed sorter texts batchSize).result = .ok vs ↔
      (p.embedBatch texts).result.map Prod.fst = .ok vs := by
  constructor
  · intro h
    have hembeds := embeds_of_bucketed hp sorter hb h
    obtain ⟨q, hbatch, -⟩ := embedBatch_total hp (.refl p) hembeds
    rw [embedBatchBucketed_total hp sorter hb hembeds] at h
    rw [hbatch, ← h]
    rfl
  · intro h
    cases hbatch : (p.embedBatch texts).result with
    | error stop =>
      rw [hbatch] at h
      cases h
    | ok r =>
      have hembeds := embeds_of_embedBatch hp (.refl p) hbatch
      obtain ⟨q, htotal, -⟩ := embedBatch_total hp (.refl p) hembeds
      rw [htotal] at h
      rw [embedBatchBucketed_total hp sorter hb hembeds]
      exact h

end LlamaPool

end LibEmbedding
