import LibEmbedding.GgufAlone
import LibEmbedding.SparseSafe

/-!
# Failures that the GGUF path reports as success

A batch whose graph cannot be built or computed gives its documents empty vectors, and so does
a document without memory for its arrays. The status of the call does not tell.
-/

namespace LibEmbedding

open Foundation

namespace SparseSession

variable {α : Type} [Field α] [LinearOrder α] (fns : MathFns α)
variable {s : SparseSession} {w : Weights} {env : GraphEnv}

-- ---------------------------------------------------------------------------
-- One batch
-- ---------------------------------------------------------------------------

/-- The sequence length and the number of documents of a batch. -/
def shapeOf (s : SparseSession) (texts : List Bytes) : Nat × Nat :=
  ((s.tok.encodeBatch texts).seqLength, texts.length)

/-- The shape of the graph that is kept. -/
def keptShape (s : SparseSession) : Option (Nat × Nat) := s.graph.map fun g => (g.seqLen, g.batch)

/-- The shape of the graph that a batch of a shape leaves. -/
def keptAfter (env : GraphEnv) (shape : Nat × Nat) (kept : Option (Nat × Nat)) :
    Option (Nat × Nat) :=
  if shape.1 = 0 then kept
  else if kept = some shape ∨ env.build then some shape
  else none

/-- A batch without tokens needs nothing. Others need a graph of their shape, kept or built, and
its computation. -/
def BatchServed (env : GraphEnv) (shape : Nat × Nat) (kept : Option (Nat × Nat)) : Prop :=
  shape.1 = 0 ∨ ((kept = some shape ∨ env.build) ∧ env.compute)

instance (env : GraphEnv) (shape : Nat × Nat) (kept : Option (Nat × Nat)) :
    Decidable (BatchServed env shape kept) := inferInstanceAs (Decidable (_ ∨ _))

theorem graphFor_isSome (seqLen batch : Nat) : (s.graphFor env w seqLen batch).isSome = true ↔
    s.keptShape = some (seqLen, batch) ∨ env.build := by
  unfold graphFor keptShape
  cases s.graph with
  | none => simp
  | some g =>
    by_cases hshape : g.seqLen = seqLen ∧ g.batch = batch
    · rw [Option.filter_some, if_pos (decide_eq_true hshape)]
      simp [hshape]
    · rw [Option.filter_some, if_neg (by simpa using hshape)]
      simpa using fun hseq hbatch => absurd ⟨hseq, hbatch⟩ hshape

/-- The graph is of the shape it is for. -/
theorem shape_of_graphFor (h : s.graphFor env w seqLen batch = some g) :
    (g.seqLen, g.batch) = (seqLen, batch) := by
  unfold graphFor at h
  split at h
  · rename_i kept hkept
    obtain ⟨-, hshape⟩ := Option.filter_eq_some_iff.mp hkept
    cases h
    exact Prod.ext (of_decide_eq_true hshape).1 (of_decide_eq_true hshape).2
  · split at h
    · cases h
      rfl
    · cases h

/-- A graph that is there is the one that enough resources give. -/
theorem graphFor_ample (h : s.graphFor env w seqLen batch = some g) :
    s.graphFor .ample w seqLen batch = some g := by
  unfold graphFor at h ⊢
  split at h
  · exact h
  · split at h
    · exact h
    · cases h

theorem runGraph_served (h : s.graphFor env w seqLen batch = some g) (hcompute : env.compute) :
    s.runGraph fns env w tokens positions valid seqLen batch =
      s.runGraph (α := α) fns .ample w tokens positions valid seqLen batch := by
  unfold runGraph
  rw [h, graphFor_ample h]
  dsimp only
  have hample : GraphEnv.ample.compute = true := rfl
  simp only [hcompute, hample]

theorem runGraph_denied (h : s.graphFor env w seqLen batch = none ∨
      ∃ g, s.graphFor env w seqLen batch = some g ∧ g.generation = s.generation)
    (hnot : ¬(s.graphFor env w seqLen batch).isSome ∨ ¬env.compute) :
    s.runGraph (α := α) fns env w tokens positions valid seqLen batch =
      .ok (none, { s with graph := s.graphFor env w seqLen batch }) := by
  unfold runGraph
  cases hgraph : s.graphFor env w seqLen batch with
  | none => rfl
  | some g =>
    rw [hgraph] at h hnot
    obtain ⟨_, ⟨⟩, hgeneration⟩ := h.resolve_left nofun
    have hcompute : ¬env.compute := hnot.resolve_left fun hno => hno rfl
    dsimp only
    rw [ensure_pos hgeneration, ok_bind, if_neg hcompute]
    rfl

theorem Ready.graph_of_some (h : s.Ready w) (hg : s.graphFor env w seqLen batch = some g) :
    g.generation = s.generation ∧ g.weights = w := by
  obtain ⟨g', hg', hgraph⟩ := h.graphFor seqLen batch
  cases (graphFor_ample hg).symm.trans hg'
  exact hgraph

theorem Ready.withGraphFor (h : s.Ready w) (env : GraphEnv) (seqLen batch : Nat) :
    Ready { s with graph := s.graphFor env w seqLen batch } w := by
  cases hgraph : s.graphFor env w seqLen batch with
  | none =>
    refine ⟨h.weights, ?_, h.ids, h.vocabSize, h.runnable, h.positions⟩
    intro g hg
    cases hg
  | some g => exact h.withGraph (h.graph_of_some hgraph).1 (h.graph_of_some hgraph).2

theorem keptShape_graphFor (seqLen batch : Nat) :
    keptShape { s with graph := s.graphFor env w seqLen batch } =
      if s.keptShape = some (seqLen, batch) ∨ env.build then some (seqLen, batch) else none := by
  have hsome : (s.graphFor env w seqLen batch).isSome = true ↔
      s.keptShape = some (seqLen, batch) ∨ env.build := graphFor_isSome seqLen batch
  cases hgraph : s.graphFor env w seqLen batch with
  | none =>
    rw [hgraph] at hsome
    rw [if_neg (hsome.not.mp Bool.false_ne_true)]
    rfl
  | some g =>
    rw [hgraph] at hsome
    rw [if_pos (hsome.mp rfl)]
    exact congrArg some (shape_of_graphFor hgraph)

/-- What a batch makes of its texts, and the shape of the graph it leaves. -/
theorem embedBatch_env (h : s.Ready w) (env : GraphEnv) (texts : List Bytes)
    (hfits : ((texts.length * (s.tok.encodeBatch texts).seqLength : Nat) : Int) ≤ intMax) :
    ∃ graph, s.embedBatch fns env w texts = .ok (texts.map (fun text =>
        if BatchServed env (s.shapeOf texts) s.keptShape then
          docResult fns w s.specialIds (s.tok.encode text) else []), { s with graph }) ∧
      Ready { s with graph } w ∧
      keptShape { s with graph } = keptAfter env (s.shapeOf texts) s.keptShape := by
  obtain ⟨graph', hample, hready'⟩ := embedBatch_ready fns h texts hfits
  by_cases hseq : (s.tok.encodeBatch texts).seqLength = 0
  · have hserved : BatchServed env (s.shapeOf texts) s.keptShape := .inl hseq
    have hsame : s.embedBatch fns env w texts = s.embedBatch fns .ample w texts := by
      unfold embedBatch
      dsimp only
      rw [if_pos hseq, if_pos hseq]
    have hstate := embedBatch_state fns hample
    rw [if_pos hseq] at hstate
    simp only [if_pos hserved]
    refine ⟨s.graph, ?_, h, (if_pos hseq).symm⟩
    rw [hsame, hample, hstate]
  · have hproduct := mulInt_tokens hfits
    have hkept : keptAfter env (s.shapeOf texts) s.keptShape =
        if s.keptShape = some (s.shapeOf texts) ∨ env.build then some (s.shapeOf texts)
        else none := if_neg hseq
    refine ⟨s.graphFor env w (s.tok.encodeBatch texts).seqLength texts.length, ?_,
      h.withGraphFor env _ _, (keptShape_graphFor _ _).trans hkept.symm⟩
    have hsome : (s.graphFor env w (s.tok.encodeBatch texts).seqLength texts.length).isSome = true ↔
        s.keptShape = some (s.shapeOf texts) ∨ env.build := graphFor_isSome _ _
    by_cases hserved : BatchServed env (s.shapeOf texts) s.keptShape
    · obtain ⟨hgraph, hcompute⟩ := hserved.resolve_left hseq
      obtain ⟨g, hg⟩ := Option.isSome_iff_exists.mp (hsome.mpr hgraph)
      have hsame : s.embedBatch fns env w texts = s.embedBatch fns .ample w texts := by
        unfold embedBatch
        dsimp only
        rw [runGraph_served fns hg hcompute]
      have hstate := embedBatch_state fns hample
      rw [if_neg hseq, graphFor_ample hg] at hstate
      simp only [if_pos hserved]
      rw [hsame, hample, hstate, hg]
    · have hdenied : ¬(s.graphFor env w (s.tok.encodeBatch texts).seqLength
          texts.length).isSome ∨ ¬env.compute := by
        by_contra hboth
        obtain ⟨hgraph, hcompute⟩ := not_or.mp hboth
        exact hserved (.inr ⟨hsome.mp (not_not.mp hgraph), not_not.mp hcompute⟩)
      have hthere : s.graphFor env w (s.tok.encodeBatch texts).seqLength texts.length = none ∨
          ∃ g, s.graphFor env w (s.tok.encodeBatch texts).seqLength texts.length = some g ∧
            g.generation = s.generation := by
        cases hgraph : s.graphFor env w (s.tok.encodeBatch texts).seqLength texts.length with
        | none => exact .inl rfl
        | some g => exact .inr ⟨g, rfl, (h.graph_of_some hgraph).1⟩
      simp only [if_neg hserved, List.map_const']
      unfold embedBatch
      dsimp only
      rw [if_neg hseq, hproduct, ok_bind, runGraph_denied fns hthere hdenied]
      rfl

-- ---------------------------------------------------------------------------
-- All batches of a call
-- ---------------------------------------------------------------------------

/-- The shape of the graph that is kept when batch `k` of a call comes up. -/
def shapeBefore (s : SparseSession) (graphs : Nat → GraphEnv) (texts : List Bytes)
    (batchSize : Int) : Nat → Option (Nat × Nat)
  | 0 => s.keptShape
  | k + 1 => keptAfter (graphs k) (s.shapeOf (slice (batchOf batchSize) texts k))
      (s.shapeBefore graphs texts batchSize k)

/-- Batch `k` gets its graph and the computation of it, or has no tokens. -/
def Served (s : SparseSession) (graphs : Nat → GraphEnv) (texts : List Bytes) (batchSize : Int)
    (k : Nat) : Prop :=
  BatchServed (graphs k) (s.shapeOf (slice (batchOf batchSize) texts k))
    (s.shapeBefore graphs texts batchSize k)

instance (graphs : Nat → GraphEnv) (texts : List Bytes) (batchSize : Int) (k : Nat) :
    Decidable (s.Served graphs texts batchSize k) :=
  inferInstanceAs (Decidable (BatchServed _ _ _))

/-- What a call gives for text `i`. -/
def answer (w : Weights) (s : SparseSession) (graphs : Nat → GraphEnv) (texts : List Bytes)
    (batchSize : Int) (i : Nat) : SparseResult α :=
  if s.Served graphs texts batchSize (i / batchOf batchSize) then
    docResult fns w s.specialIds (s.tok.encode (texts.getD i []))
  else []

theorem slice_answers (graphs : Nat → GraphEnv) (texts : List Bytes) (batchSize : Int) (k : Nat) :
    slice (batchOf batchSize) ((List.range texts.length).map
        (answer fns w s graphs texts batchSize)) k =
      (slice (batchOf batchSize) texts k).map fun text =>
        if s.Served graphs texts batchSize k then docResult fns w s.specialIds (s.tok.encode text)
        else [] := by
  apply List.ext_getElem?
  intro i
  rw [List.getElem?_map]
  by_cases hi : i < batchOf batchSize
  · have hdiv := row_of_place hi k
    rw [getElem?_slice hi, getElem?_slice hi, List.getElem?_map]
    by_cases hlt : k * batchOf batchSize + i < texts.length
    · have htext := List.getElem?_eq_getElem hlt
      rw [List.getElem?_range hlt, htext, Option.map_some, Option.map_some, answer, hdiv,
        List.getD_eq_getElem?_getD, htext, Option.getD_some]
    · rw [List.getElem?_eq_none (by rw [List.length_range]; omega),
        List.getElem?_eq_none (by omega)]
      rfl
  · have hshort : ∀ {β : Type} (l : List β), (slice (batchOf batchSize) l k)[i]? = none := by
      intro β l
      refine List.getElem?_eq_none ?_
      rw [length_slice]
      omega
    rw [hshort, hshort]
    rfl

/-- A call gives every text its own result or, when its batch is not served, an empty one. -/
theorem embedEach_ready (h : s.Ready w) (graphs : Nat → GraphEnv) (texts : List Bytes)
    (batchSize : Int) (hfits : s.Fits texts batchSize) :
    ∃ graph, s.embedEach fns graphs texts batchSize =
      .ok ((List.range texts.length).map (answer fns w s graphs texts batchSize),
        { s with graph }) := by
  let n := batchOf batchSize
  let answers := (List.range texts.length).map (answer fns w s graphs texts batchSize)
  let inv (k : Nat) (state : List (SparseResult α) × SparseSession) : Prop :=
    state.1 = answers.take (k * n) ∧
      ∃ graph, state.2 = { s with graph } ∧ Ready { s with graph } w ∧
        keptShape { s with graph } = s.shapeBefore graphs texts batchSize k
  have hloop : ∃ final, forUpTo (sliceCount n texts.length)
      (fun state k => embedStep fns (graphs k) w n texts state k) ([], s) = .ok final ∧
        inv (sliceCount n texts.length) final := by
    refine forUpTo_total inv ⟨by simp, s.graph, rfl, h, rfl⟩ ?_
    rintro k ⟨results, s'⟩ hk ⟨hresults, graph, hs', hready, hkept⟩
    dsimp only at hresults hs'
    subst hs'
    obtain ⟨graph', hbatch, hready', hkept'⟩ :=
      embedBatch_env fns hready (graphs k) (slice n texts k) (hfits k hk)
    rw [hkept] at hbatch hkept'
    refine ⟨(results ++ slice n answers k, { s with graph := graph' }), ?_, ?_, graph', rfl,
      hready', hkept'⟩
    · simp only [embedStep]
      rw [hbatch, ok_bind, slice_answers]
      rfl
    · rw [hresults, take_append_slice]
  obtain ⟨⟨results, s'⟩, hrun, hresults, graph, hs', -⟩ := hloop
  dsimp only at hresults hs'
  subst hs'
  refine ⟨graph, ?_⟩
  have hall : answers.take (sliceCount n texts.length * n) = answers := by
    have hlength : answers.length = texts.length := by simp [answers]
    have hcover := take_slices (batchOf_pos batchSize) answers
    rwa [hlength] at hcover
  rw [embedEach_of_weights fns h.weights, hrun, hresults, hall]

end SparseSession

namespace SparseEmbedding

open Program CallState

variable {α : Type} [Field α] [LinearOrder α]

-- ---------------------------------------------------------------------------
-- A call that succeeds
-- ---------------------------------------------------------------------------

/-- No step throws and the items are allocated. -/
structure Completes (env : SparseEnv) (n : Nat) : Prop where
  texts : env.throws .texts = false
  embed : env.throws .embed = false
  calloc : env.calloc = true
  prune : ∀ i < n, env.throws (.prune i) = false

section Complete

variable {env : SparseEnv} {sorter : SortImpl} {options : SparseOptions α}
  {results : List (SparseResult α)} {final : Nat → SparseResult α} {n : Nat}

/-- The vectors when those before `k` have been stored. -/
def vectorsAt (final : Nat → SparseResult α) (n k : Nat) : List (SparseResult α) :=
  (List.range n).map fun i => if i < k then final i else []

omit [Field α] [LinearOrder α] in
variable (final) in
theorem vectorsAt_zero : vectorsAt final n 0 = List.replicate n [] := by
  simp [vectorsAt]

omit [Field α] [LinearOrder α] in
theorem vectorsAt_all : vectorsAt final n n = (List.range n).map final := by
  refine List.map_congr_left fun i hi => ?_
  rw [if_pos (List.mem_range.mp hi)]

omit [Field α] [LinearOrder α] in
theorem vectorsAt_set : (vectorsAt final n k).set k (final k) = vectorsAt final n (k + 1) := by
  apply List.ext_getElem?
  intro i
  rw [List.getElem?_set]
  unfold vectorsAt
  simp only [List.getElem?_map, List.length_map, List.length_range]
  by_cases hi : i < n
  · rw [List.getElem?_range hi]
    by_cases heq : k = i
    · subst heq
      simp [hi]
    · have hiff : i ≤ k ↔ i < k := by omega
      simp [heq, hiff]
  · rw [List.getElem?_eq_none (by simpa using hi)]
    by_cases heq : k = i
    · subst heq
      simp [hi]
    · simp [heq]

/-- A round of the loop that is not cut short. -/
theorem meets_storePruned_complete {T : Halt → CallState α → Prop} {k : Nat} {v : SparseResult α}
    (hk : k < n) (hthrows : env.throws (.prune k) = false) (hresult : results[k]? = some r)
    (hv : sparsePruneAndSort sorter options r = .ok v) (hfinal : final k = stored env k v) :
    (storePruned env sorter options results 0 k).Meets
      (fun s => ∃ p, Filling p (vectorsAt final n k) 0 s)
      (fun _ s => ∃ p, Filling p (vectorsAt final n (k + 1)) 0 s) T := by
  have hlength : (vectorsAt final n k).length = n := by simp [vectorsAt]
  unfold storePruned
  rw [Nat.zero_add, hthrows]
  refine (Meets.compute_ok (get_ok.mpr hresult)).bind fun _ => .of_fact ?_
  rintro rfl
  refine Meets.throwIf_false.bind fun _ => ?_
  refine (Meets.compute_ok hv).bind fun _ => .of_fact ?_
  rintro rfl s ⟨p, hfilling⟩
  have hinside : k < (vectorsAt final n k).length := by omega
  refine (Filling.store hinside).weaken (fun _ => id) ?_ (fun _ _ => id) s hfilling
  intro _ t ht
  rw [← hfinal, vectorsAt_set] at ht
  exact ⟨p, ht⟩

end Complete

section Call

variable {session : SparseSession} {w : Weights} {env : SparseEnv} {graphs : Nat → GraphEnv}
  {fns : MathFns α} {sorter : SortImpl} {options : SparseOptions α}
  {texts : Nat → Option Bytes} {numTexts batchSize : Int} {sparse : List (SparseResult α)}
  {vectors : Nat → SparseResult α}

/-- The texts of a call. -/
def textsOf (texts : Nat → Option Bytes) (numTexts : Int) : List Bytes :=
  (List.range numTexts.toNat).map fun i => (texts i).getD []

theorem length_textsOf : (textsOf texts numTexts).length = numTexts.toNat := by simp [textsOf]

/-- A call that is not cut short leaves the pruned vectors of its session, as far as there is
memory for them. -/
theorem meets_embedGguf_complete (hcompletes : Completes env numTexts.toNat)
    (hsparse : (session.embedEach fns graphs (textsOf texts numTexts) batchSize).map Prod.fst =
      .ok sparse)
    (hlength : sparse.length = numTexts.toNat) (hcount : batchCount numTexts batchSize = .ok k)
    (hvectors : ∀ i r, sparse[i]? = some r →
      sparsePruneAndSort sorter options r = .ok (vectors i)) :
    (embedGguf session env graphs fns sorter options texts numTexts batchSize).Meets
      (fun s => s.allocated = [] ∧ s.freed = [])
      (fun status s => status = .ok ∧ ∃ p items, Readable p items
        ((List.range numTexts.toNat).map fun i => stored env i (vectors i)) s)
      (fun _ _ => False) := by
  let final (i : Nat) : SparseResult α := stored env i (vectors i)
  refine Meets.tryCatch (U := fun _ _ => False) ?_ (fun _ h => h.elim) fun _ _ _ h => h
  rw [hcompletes.texts, hcompletes.embed]
  refine Meets.throwIf_false.bind fun _ => ?_
  refine Meets.throwIf_false.bind fun _ => ?_
  refine (Meets.compute_ok hsparse).bind fun _ => .of_fact ?_
  rintro rfl
  refine (Meets.modify (K := fun s => s.allocated = [] ∧ s.freed = [] ∧
    s.result.count = 0) fun s hs => ⟨hs.1, hs.2, rfl⟩).bind fun _ => ?_
  refine (meets_allocItems hcompletes.calloc).bind fun there => .of_fact ?_
  rintro rfl
  rw [← vectorsAt_zero final]
  refine (Meets.compute_ok hcount).bind fun _ => .of_fact fun _ => ?_
  have hmin : min sparse.length numTexts.toNat = numTexts.toNat := by omega
  have hloop : (Program.forUpTo (min sparse.length numTexts.toNat) (fun (_ : Unit) b =>
      storePruned env sorter options sparse 0 b) ()).Meets
        (fun s => ∃ p, Filling p (vectorsAt final numTexts.toNat 0) 0 s)
        (fun _ s => ∃ p, Filling p ((List.range numTexts.toNat).map final) 0 s)
        (fun _ _ => False) := by
    rw [hmin, ← vectorsAt_all]
    refine Meets.forUpTo (fun i _ s => ∃ p, Filling p (vectorsAt final numTexts.toNat i) 0 s)
      fun i hi _ => ?_
    have hr := List.getElem?_eq_getElem (hlength ▸ hi : i < sparse.length)
    exact meets_storePruned_complete hi (hcompletes.prune i hi) hr (hvectors i _ hr) rfl
  refine hloop.bind fun _ => ?_
  refine Meets.bind (Q := fun _ s => ∃ p items, Readable p items
    ((List.range numTexts.toNat).map final) s) ?_ fun _ s hs => ⟨rfl, hs⟩
  refine Meets.modify ?_
  rintro s ⟨p, items, hholds, -, -⟩
  have hlengths : ((List.range numTexts.toNat).map final).length = numTexts.toNat := by simp
  have hmoved : Holds p items ((List.range numTexts.toNat).map final)
      { s with result := { s.result with count := (min sparse.length numTexts.toNat : Nat) } } :=
    ⟨⟨hholds.points.pointer, hholds.points.array⟩, hholds.held, hholds.apart⟩
  have hreadable := hmoved.readable (n := numTexts.toNat) (by rw [hmin]) hlengths.ge
  rw [List.take_of_length_le hlengths.le] at hreadable
  exact ⟨p, items, hreadable⟩

/-- A call that reports success has not been cut short. -/
theorem meets_embedGguf_ok :
    (embedGguf session env graphs fns sorter options texts numTexts batchSize).Meets
      (fun _ => True)
      (fun status _ => status = .ok → env.throws .texts = false ∧ env.throws .embed = false ∧
        env.calloc = true ∧ (∃ k, batchCount numTexts batchSize = .ok k) ∧
        ∃ sparse, (session.embedEach fns graphs (textsOf texts numTexts) batchSize).map Prod.fst =
          .ok sparse ∧ ∀ i < min sparse.length numTexts.toNat, env.throws (.prune i) = false)
      (fun _ _ => True) := by
  refine Meets.tryCatch (U := fun _ _ => True) ?_ ?_ fun _ _ _ => id
  · refine (Meets.throwIf fun _ _ => trivial).bind fun _ => .of_fact fun htexts => ?_
    refine (Meets.throwIf fun _ _ => trivial).bind fun _ => .of_fact fun hembed => ?_
    refine (Meets.compute fun _ _ _ => trivial).bind fun sparse => .of_fact fun hsparse => ?_
    refine Meets.trivial.bind fun _ => ?_
    have hitems : (allocItems (α := α) env numTexts.toNat).Meets (fun _ => True)
        (fun there s => there = env.calloc ∧ True) (fun _ _ => True) := by
      intro s _
      unfold allocItems
      cases env.calloc with
      | true => exact ⟨rfl, trivial⟩
      | false => exact ⟨rfl, trivial⟩
    refine hitems.bind fun there => .of_fact ?_
    rintro rfl
    cases hcalloc : env.calloc with
    | false => exact fun _ _ h => nomatch h
    | true =>
      refine (Meets.compute fun _ _ _ => trivial).bind fun numBatches => .of_fact fun hcount => ?_
      have hloop : (Program.forUpTo (min sparse.length numTexts.toNat) (fun (_ : Unit) b =>
          storePruned env sorter options sparse 0 b) ()).Meets
            (fun _ => ∀ i < 0, env.throws (.prune i) = false)
            (fun _ _ => ∀ i < min sparse.length numTexts.toNat, env.throws (.prune i) = false)
            (fun _ _ => True) := by
        refine Meets.forUpTo (fun k _ _ => ∀ i < k, env.throws (.prune i) = false) fun k _ _ => ?_
        unfold storePruned
        refine (Meets.compute fun _ _ _ => trivial).bind fun _ => .of_fact fun _ => ?_
        refine (Meets.throwIf fun _ _ => trivial).bind fun _ => .of_fact fun hprune => ?_
        rw [Nat.zero_add] at hprune
        intro s hs
        refine Meets.weaken (P := fun _ => True) (K := (· = s)) Meets.trivial (fun _ _ => trivial)
          ?_ (fun _ _ => id) s rfl
        intro _ _ _ i hi
        rcases Nat.lt_succ_iff_lt_or_eq.mp hi with hlt | rfl
        · exact hs i hlt
        · exact hprune
      refine (hloop.weaken (fun _ _ => fun i hi => absurd hi (Nat.not_lt_zero i)) (fun _ _ => id)
        fun _ _ => id).bind fun _ => ?_
      intro s hs
      exact fun _ => ⟨htexts, hembed, rfl, ⟨numBatches, hcount⟩, sparse, hsparse, hs⟩
  · exact Meets.trivial.bind fun _ _ _ h => nomatch h

end Call

-- ---------------------------------------------------------------------------
-- Which calls tell of their failures
-- ---------------------------------------------------------------------------

section Own

omit [Field α] [LinearOrder α] in
theorem vector_ext {a b : SparseResult α}
    (hindices : a.map SparseTerm.index = b.map SparseTerm.index)
    (hvalues : a.map SparseTerm.value = b.map SparseTerm.value) : a = b := by
  induction a generalizing b with
  | nil =>
    cases b with
    | nil => rfl
    | cons t b => cases hindices
  | cons t a ih =>
    cases b with
    | nil => cases hindices
    | cons u b =>
      simp only [List.map_cons, List.cons.injEq] at hindices hvalues
      rw [ih hindices.2 hvalues.2]
      cases t
      cases u
      simp_all

omit [Field α] [LinearOrder α] in
/-- An item holds one vector. -/
theorem holdsVector_unique {heap : Heap (SparseBlock α)} :
    Relator.RightUnique (HoldsVector heap) := by
  have hread : ∀ {item : SparseItem} {sr : SparseResult α}, HoldsVector heap item sr →
      (item.indices = none → sr = []) ∧
        (∀ q, item.indices = some q → heap.cells q = some (.indices (sr.map SparseTerm.index))) ∧
        ∀ q, item.values = some q → heap.cells q = some (.values (sr.map SparseTerm.value)) := by
    intro item sr h
    cases h with
    | empty => exact ⟨fun _ => rfl, nofun, nofun⟩
    | arrays hne hindices hvalues =>
      refine ⟨nofun, ?_, ?_⟩
      · rintro _ ⟨⟩
        exact hindices
      · rintro _ ⟨⟩
        exact hvalues
  intro item a b ha hb
  obtain ⟨hnil, hindices, hvalues⟩ := hread ha
  obtain ⟨hnil', hindices', hvalues'⟩ := hread hb
  cases hitem : item.indices with
  | none => rw [hnil hitem, hnil' hitem]
  | some q =>
    obtain ⟨r, hr⟩ : ∃ r, item.values = some r := by
      cases ha with
      | empty => cases hitem
      | arrays => exact ⟨_, rfl⟩
    have heq := (hindices q hitem).symm.trans (hindices' q hitem)
    have heq' := (hvalues r hr).symm.trans (hvalues' r hr)
    exact vector_ext (SparseBlock.indices.inj (Option.some.inj heq))
      (SparseBlock.values.inj (Option.some.inj heq'))

omit [Field α] [LinearOrder α] in
theorem readable_unique {s : CallState α} {vectors' : List (SparseResult α)}
    (h : Readable p items vectors s) (h' : Readable p' items' vectors' s) : vectors = vectors' := by
  obtain rfl := Option.some.inj (h.points.pointer.symm.trans h'.points.pointer)
  have hitems := Option.some.inj (h.points.array.symm.trans h'.points.array)
  obtain rfl := SparseBlock.items.inj hitems
  have hlength : vectors.length = vectors'.length :=
    Int.ofNat_inj.mp (h.count.symm.trans h'.count)
  have held := h.held
  rw [hlength] at held
  exact List.right_unique_forall₂' holdsVector_unique held h'.held

/-- The vector that the pruning makes of another. -/
def pruned (sorter : SortImpl) (options : SparseOptions α) (sr : SparseResult α) :
    SparseResult α := ((sparsePruneAndSort sorter options sr).toOption).getD []

theorem prune_eq (sorter : SortImpl) (options : SparseOptions α) (sr : SparseResult α) :
    sparsePruneAndSort sorter options sr = .ok (pruned sorter options sr) := by
  obtain ⟨out, hout, -⟩ := prune_spec sorter options sr
  rw [pruned, hout]
  rfl

theorem pruned_nil (sorter : SortImpl) (options : SparseOptions α) :
    pruned sorter options [] = [] := by
  obtain ⟨out, hout, hheaviest, -⟩ := prune_spec sorter options []
  have hnil : dropLight options.minWeight ([] : SparseResult α) = [] := by
    unfold dropLight
    split <;> rfl
  rw [hnil] at hheaviest
  have hempty : out = [] := List.eq_nil_iff_forall_not_mem.mpr fun t ht =>
    absurd (hheaviest.subset ht) List.not_mem_nil
  rw [pruned, hout, hempty]
  rfl

variable {session : SparseSession} {w : Weights} {env : SparseEnv} {graphs : Nat → GraphEnv}
  {fns : MathFns α} {sorter : SortImpl} {options : SparseOptions α}
  {texts : Nat → Option Bytes} {numTexts batchSize : Int}

/-- The struct holds for every text the pooled vector of its own tokens, without the special
ones and pruned. -/
def HoldsOwn (session : SparseSession) (w : Weights) (fns : MathFns α) (sorter : SortImpl)
    (options : SparseOptions α) (texts : List Bytes) (s : CallState α) : Prop :=
  ∃ p items vectors, Readable p items vectors s ∧ List.Forall₂ (fun text vector =>
    sparsePruneAndSort sorter options
      (docResult fns w session.specialIds (session.tok.encode text)) = .ok vector) texts vectors

/-- In a call that is not cut short, every document with a vector to report gets its graph and
memory for its arrays. -/
def Provided (session : SparseSession) (w : Weights) (env : SparseEnv) (graphs : Nat → GraphEnv)
    (fns : MathFns α) (sorter : SortImpl) (options : SparseOptions α) (texts : List Bytes)
    (batchSize : Int) : Prop :=
  Completes env texts.length → session.Fits texts batchSize →
    (∃ k, batchCount texts.length batchSize = .ok k) →
      ∀ i text vector, texts[i]? = some text → sparsePruneAndSort sorter options
        (docResult fns w session.specialIds (session.tok.encode text)) = .ok vector → vector ≠ [] →
          session.Served graphs texts batchSize (i / SparseSession.batchOf batchSize) ∧
            env.mallocIndices i = true ∧ env.mallocValues i = true

/-- What a call that is not cut short leaves for each of its texts. -/
theorem embedGguf_complete (hready : session.Ready w)
    (heap : Heap (SparseBlock α)) (result : SparseEmbeddings)
    (hcompletes : Completes env numTexts.toNat)
    (hfits : session.Fits (textsOf texts numTexts) batchSize)
    (hcount : batchCount numTexts batchSize = .ok k) :
    ∃ p items t, (embedGguf session env graphs fns sorter options texts numTexts batchSize).run
        (start heap result) = (.ok .ok, t) ∧
      Readable p items ((List.range numTexts.toNat).map fun i => stored env i (pruned sorter options
        (session.answer fns w graphs (textsOf texts numTexts) batchSize i))) t := by
  obtain ⟨graph, hembed⟩ := session.embedEach_ready fns hready graphs (textsOf texts numTexts)
    batchSize hfits
  let answers := (List.range (textsOf texts numTexts).length).map
    (session.answer fns w graphs (textsOf texts numTexts) batchSize)
  have hlength : answers.length = numTexts.toNat := by
    rw [List.length_map, List.length_range, length_textsOf]
  have hsparse : (session.embedEach fns graphs (textsOf texts numTexts) batchSize).map Prod.fst =
      .ok answers := by
    rw [hembed]
    rfl
  have hvectors : ∀ i r, answers[i]? = some r → sparsePruneAndSort sorter options r = .ok
      (pruned sorter options
        (session.answer fns w graphs (textsOf texts numTexts) batchSize i)) := by
    intro i r hr
    have hi : i < numTexts.toNat := hlength ▸ (List.getElem?_eq_some_iff.mp hr).1
    have hget : answers[i]? = some
        (session.answer fns w graphs (textsOf texts numTexts) batchSize i) := by
      rw [List.getElem?_map, List.getElem?_range (length_textsOf ▸ hi)]
      rfl
    cases hget.symm.trans hr
    exact prune_eq sorter options _
  have hmeets := meets_embedGguf_complete hcompletes hsparse hlength hcount hvectors
    (start heap result) ⟨rfl, rfl⟩
  cases hrun : (embedGguf session env graphs fns sorter options texts numTexts batchSize).run
      (start heap result) with
  | mk ended t =>
    rw [hrun] at hmeets
    cases ended with
    | error e => exact hmeets.elim
    | ok status =>
      obtain ⟨rfl, p, items, hreadable⟩ := hmeets
      exact ⟨p, items, t, rfl, hreadable⟩

/-- What a call leaves for a text is its own vector just when that is empty or the text got all
it needs. -/
theorem stored_own_iff {texts : List Bytes} {batchSize : Int} {i : Nat} {text : Bytes}
    (htext : texts[i]? = some text) :
    stored env i (pruned sorter options (session.answer fns w graphs texts batchSize i)) =
        pruned sorter options (docResult fns w session.specialIds (session.tok.encode text)) ↔
      (pruned sorter options (docResult fns w session.specialIds (session.tok.encode text)) ≠ [] →
        session.Served graphs texts batchSize (i / SparseSession.batchOf batchSize) ∧
          env.mallocIndices i = true ∧ env.mallocValues i = true) := by
  rw [SparseSession.answer, List.getD_eq_getElem?_getD, htext, Option.getD_some]
  constructor
  · intro hsame hne
    have hserved : session.Served graphs texts batchSize
        (i / SparseSession.batchOf batchSize) := by
      by_contra hnot
      rw [if_neg hnot, pruned_nil, stored, ite_self] at hsame
      exact hne hsame.symm
    refine ⟨hserved, ?_⟩
    rw [stored] at hsame
    split at hsame
    · rename_i hmalloc
      exact Bool.and_eq_true_iff.mp hmalloc
    · exact absurd hsame.symm hne
  · intro h
    by_cases hnil : pruned sorter options
        (docResult fns w session.specialIds (session.tok.encode text)) = []
    · rw [hnil]
      split
      · rw [hnil, stored, ite_self]
      · rw [pruned_nil, stored, ite_self]
    · obtain ⟨hserved, hindices, hvalues⟩ := h hnil
      rw [if_pos hserved, stored, hindices, hvalues]
      rfl

theorem holdsOwn_iff {texts : List Bytes} {s : CallState α} :
    HoldsOwn session w fns sorter options texts s ↔ ∃ p items, Readable p items
      (texts.map fun text => pruned sorter options
        (docResult fns w session.specialIds (session.tok.encode text))) s := by
  constructor
  · rintro ⟨p, items, vectors, hreadable, hown⟩
    have hvectors : vectors = texts.map fun text => pruned sorter options
        (docResult fns w session.specialIds (session.tok.encode text)) := by
      clear hreadable
      induction hown with
      | nil => rfl
      | cons hvector _ ih =>
        rw [List.map_cons, ← ih, ← Except.ok.inj ((prune_eq sorter options _).symm.trans hvector)]
    exact ⟨p, items, hvectors ▸ hreadable⟩
  · rintro ⟨p, items, hreadable⟩
    refine ⟨p, items, _, hreadable, ?_⟩
    rw [List.forall₂_map_right_iff, List.forall₂_same]
    exact fun text _ => prune_eq sorter options _

theorem map_range_eq_iff {f : Nat → γ} {g : β → γ} {l : List β} :
    (List.range l.length).map f = l.map g ↔ ∀ i x, l[i]? = some x → f i = g x := by
  rw [List.ext_getElem?_iff]
  refine forall_congr' fun i => ?_
  rw [List.getElem?_map, List.getElem?_map]
  by_cases hi : i < l.length
  · rw [List.getElem?_range hi, List.getElem?_eq_getElem hi]
    simp
  · rw [List.getElem?_eq_none (by simpa using hi), List.getElem?_eq_none (by simpa using hi)]
    simp

/-- A call tells the truth just when it provides for what it reports. -/
theorem embedGguf_own_iff (hready : session.Ready w) (hn : 0 ≤ numTexts)
    (heap : Heap (SparseBlock α)) (result : SparseEmbeddings) :
    (∀ t, (embedGguf session env graphs fns sorter options texts numTexts batchSize).run
        (start heap result) = (.ok .ok, t) →
      HoldsOwn session w fns sorter options (textsOf texts numTexts) t) ↔
    Provided session w env graphs fns sorter options (textsOf texts numTexts) batchSize := by
  have hlength : (textsOf texts numTexts).length = numTexts.toNat := length_textsOf
  have hcast : ((textsOf texts numTexts).length : Int) = numTexts := by
    rw [hlength, Int.toNat_of_nonneg hn]
  have hcomplete : ∀ {k}, Completes env numTexts.toNat →
      session.Fits (textsOf texts numTexts) batchSize → batchCount numTexts batchSize = .ok k →
      ∃ t, (embedGguf session env graphs fns sorter options texts numTexts batchSize).run
          (start heap result) = (.ok .ok, t) ∧
        (HoldsOwn session w fns sorter options (textsOf texts numTexts) t ↔
          ∀ i text, (textsOf texts numTexts)[i]? = some text →
            pruned sorter options
                (docResult fns w session.specialIds (session.tok.encode text)) ≠ [] →
              session.Served graphs (textsOf texts numTexts) batchSize
                  (i / SparseSession.batchOf batchSize) ∧
                env.mallocIndices i = true ∧ env.mallocValues i = true) := by
    intro k hcompletes hfits hcount
    obtain ⟨p, items, t, hrun, hreadable⟩ := embedGguf_complete hready heap result
      hcompletes hfits hcount
    refine ⟨t, hrun, ?_⟩
    rw [← hlength] at hreadable
    calc HoldsOwn session w fns sorter options (textsOf texts numTexts) t
        ↔ _ = (textsOf texts numTexts).map fun text => pruned sorter options
            (docResult fns w session.specialIds (session.tok.encode text)) := by
          rw [holdsOwn_iff]
          constructor
          · rintro ⟨p', items', hown⟩
            exact readable_unique hreadable hown
          · intro heq
            exact ⟨p, items, heq ▸ hreadable⟩
      _ ↔ _ := map_range_eq_iff
      _ ↔ _ := forall_congr' fun i => forall_congr' fun text => forall_congr' stored_own_iff
  constructor
  · rintro h hcompletes hfits ⟨k, hcount⟩ i text vector htext hvector hne
    rw [hlength] at hcompletes
    rw [hcast] at hcount
    obtain ⟨t, hrun, hiff⟩ := hcomplete hcompletes hfits hcount
    have hpruned := Except.ok.inj ((prune_eq sorter options _).symm.trans hvector)
    exact hiff.mp (h t hrun) i text htext (hpruned ▸ hne)
  · intro h t hrun
    obtain ⟨htexts, hembed, hcalloc, ⟨k, hcount⟩, sparse, hsparse, hprune⟩ :=
      meets_embedGguf_ok.of_ok (P := fun _ => True) trivial hrun rfl
    obtain ⟨⟨results, session'⟩, hrun', hfst⟩ := map_ok.mp hsparse
    have hfits := session.fits_of_embedEach fns hready.weights hrun'
    obtain ⟨graph, hready'⟩ := session.embedEach_ready fns hready graphs (textsOf texts numTexts)
      batchSize hfits
    have hsize : sparse.length = numTexts.toNat := by
      cases hrun'.symm.trans hready'
      rw [← hfst, List.length_map, List.length_range, hlength]
    have hcompletes : Completes env numTexts.toNat :=
      ⟨htexts, hembed, hcalloc, fun i hi => hprune i (by omega)⟩
    obtain ⟨t', hrun'', hiff⟩ := hcomplete hcompletes hfits hcount
    cases hrun.symm.trans hrun''
    refine hiff.mpr fun i text htext hne => ?_
    have hcompletes' : Completes env (textsOf texts numTexts).length := hlength.symm ▸ hcompletes
    have hcount' : batchCount (textsOf texts numTexts).length batchSize = .ok k := by
      rw [hcast]
      exact hcount
    exact h hcompletes' hfits ⟨k, hcount'⟩ i text _ htext (prune_eq sorter options _) hne

/-- The batch size of a call on a context. -/
def effectiveBatch (ctx : SparseEmbedding α) (call : SparseCall α) : Int :=
  if call.batchSize ≤ 0 then ctx.batchSize else call.batchSize

/-- A GGUF call that reports success has the own vector of every text to show for it just when
every document with a vector to report gets its graph and memory for its arrays. -/
theorem ok_means_own_iff (ctx : SparseEmbedding α) (hgguf : ctx.gguf = some session)
    (h : session.Loaded w) (hcurrent : session.Current) (hshaped : w.Shaped)
    (hpositions : session.tok.maxLength ≤ w.head.posEmbd.ne1) (heps : w.hparams.eps ≠ .nan)
    (env : SparseEnv) (graphs : Nat → GraphEnv) (fns : MathFns α) (sorter : SortImpl)
    (call : SparseCall α) (heap : Heap (SparseBlock α)) (result : SparseEmbeddings) :
    (∀ texts t, call.texts = some texts →
      (ctx.embed env graphs fns sorter call).run (start heap result) = (.ok .ok, t) →
        HoldsOwn session w fns sorter (call.sparseOpts.getD ctx.options)
          (textsOf texts call.numTexts) t) ↔
    ∀ texts, call.texts = some texts → Provided session w env graphs fns sorter
      (call.sparseOpts.getD ctx.options) (textsOf texts call.numTexts)
      (ctx.effectiveBatch call) := by
  have hready := h.ready hcurrent ⟨hshaped, h.sound heps⟩ hpositions
  refine forall_congr' fun texts => ?_
  rw [forall_comm]
  refine forall_congr' fun htexts => ?_
  by_cases hn : call.numTexts ≤ 0
  · have hnone : textsOf texts call.numTexts = [] := by
      rw [textsOf, Int.toNat_eq_zero.mpr hn]
      rfl
    refine iff_of_true (fun t hrun => ?_) ?_
    · simp only [embed, htexts, if_pos hn] at hrun
      cases hrun
    · rw [hnone]
      intro _ _ _ i text vector htext
      cases htext
  · have hembed : ctx.embed env graphs fns sorter call = embedGguf session env graphs fns sorter
        (call.sparseOpts.getD ctx.options) texts call.numTexts (ctx.effectiveBatch call) := by
      simp only [embed, htexts, if_neg hn, hgguf, effectiveBatch]
    rw [hembed]
    exact embedGguf_own_iff hready (not_le.mp hn).le heap result

/-- A context for a GGUF session. -/
def ggufContext (session : SparseSession) : SparseEmbedding ℚ where
  tokenizer := .new
  session := ⟨fun _ => 0, fun _ _ => .threw⟩
  gguf := some session
  batchSize := 32
  options := ⟨0, 0, 0⟩

/-- No step throws, and there is memory for all arrays. -/
def quietEnv : SparseEnv := ⟨fun _ => false, true, fun _ => true, fun _ => true⟩

def oneText : SparseCall ℚ := ⟨some fun _ => some (TokenizerWrapper.marks 1), 1, 32, none⟩

theorem ok_means_own_sample : ∃ session w,
    (∀ texts t, oneText.texts = some texts →
      ((ggufContext session).embed quietEnv (fun _ => .ample) plainFns insertionImpl oneText).run
        (start .empty ⟨none, 0⟩) = (.ok .ok, t) →
        HoldsOwn session w plainFns insertionImpl ⟨0, 0, 0⟩ (textsOf texts 1) t) ↔
    ∀ texts, oneText.texts = some texts → Provided session w quietEnv (fun _ => .ample) plainFns
      insertionImpl ⟨0, 0, 0⟩ (textsOf texts 1) 32 := by
  obtain ⟨session, w, -, hloaded, hrunnable, hpositions, -, hgraph, -⟩ :=
    SparseSession.sample_loaded .new
  exact ⟨session, w, ok_means_own_iff (ggufContext session) rfl hloaded
    (SparseSession.current_of_none hgraph) hrunnable.toShaped hpositions
    (SparseSession.eps_ne_nan hrunnable) quietEnv (fun _ => .ample) plainFns insertionImpl oneText
    .empty ⟨none, 0⟩⟩

def sampleSession : SparseSession :=
  (SparseSession.new.loadFromFile (some (ascii "a.gguf")) (some (sampleHeader [] 4)) .ample 0).2

theorem sample_vector : (sampleSession.weights.map fun w =>
    (sparsePruneAndSort insertionImpl ⟨0, 0, 0⟩ (docResult plainFns w sampleSession.specialIds
      (sampleSession.tok.encode (TokenizerWrapper.marks 1)))).toOption) =
        some (some [⟨0, 2⟩]) := by
  decide +kernel

theorem sample_tokens :
    (sampleSession.tok.encodeBatch [TokenizerWrapper.marks 1]).seqLength ≠ 0 := by
  decide +kernel

/-- A batch without resources: the call succeeds with an empty vector for a text that has one
of a term. -/
theorem empty_for_failure : ∃ session w t, session.Loaded w ∧
    ((ggufContext session).embed quietEnv (fun _ => ⟨false, false⟩) plainFns insertionImpl
      oneText).run (start .empty ⟨none, 0⟩) = (.ok .ok, t) ∧
    ¬HoldsOwn session w plainFns insertionImpl ⟨0, 0, 0⟩ [TokenizerWrapper.marks 1] t := by
  obtain ⟨session, w, hload, hloaded, hrunnable, hpositions, -, hgraph, -⟩ :=
    SparseSession.sample_loaded .new
  have hready := hloaded.ready (SparseSession.current_of_none hgraph) hrunnable hpositions
  have hsession : session = sampleSession := by
    rw [sampleSession, hload]
  have htexts : textsOf (fun _ => some (TokenizerWrapper.marks 1)) 1 =
      [TokenizerWrapper.marks 1] := rfl
  have hcompletes : Completes quietEnv 1 := ⟨rfl, rfl, rfl, fun _ _ => rfl⟩
  have hfits : session.Fits (textsOf (fun _ => some (TokenizerWrapper.marks 1)) 1) 32 :=
    hloaded.fits_single _ _
  have hcount : batchCount 1 32 = .ok 1 := by decide
  obtain ⟨p, items, t, hrun, -⟩ := @embedGguf_complete ℚ _ _ session w quietEnv
    (fun _ => ⟨false, false⟩) plainFns insertionImpl ⟨0, 0, 0⟩ _ 1 32 1 hready .empty ⟨none, 0⟩
    hcompletes hfits hcount
  refine ⟨session, w, t, hloaded, hrun, fun hown => ?_⟩
  have hprovided := (embedGguf_own_iff hready zero_le_one .empty ⟨none, 0⟩).mp fun t' hrun' => by
    cases hrun.symm.trans hrun'
    exact hown
  have hvector : sparsePruneAndSort insertionImpl ⟨0, 0, 0⟩ (docResult plainFns w
      session.specialIds (session.tok.encode (TokenizerWrapper.marks 1))) = .ok [⟨0, 2⟩] := by
    have hsample := sample_vector
    rw [← hsession, hloaded.weights, Option.map_some, prune_eq] at hsample
    rw [prune_eq]
    exact congrArg Except.ok (Option.some.inj (Option.some.inj hsample))
  obtain ⟨hserved, -⟩ := hprovided hcompletes hfits ⟨1, hcount⟩ 0 _ _ rfl hvector
    (List.cons_ne_nil _ _)
  rcases hserved with hzero | ⟨-, hcompute⟩
  · rw [hsession] at hzero
    exact sample_tokens hzero
  · cases hcompute

end Own

end SparseEmbedding

end LibEmbedding
