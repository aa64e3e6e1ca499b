import LibEmbedding.Foundation.Runs
import LibEmbedding.GgufTables

/-!
# Loads and calls in any order

A session over its whole life. The kept graph is the only member a call leaves behind, and
no load looks at it: a run is safe exactly when every load that succeeds finds none.
-/

namespace LibEmbedding

open Foundation

/-- What can be asked of a session. -/
inductive SessionCall where
  | load (path : Option Bytes) (file : Option GgufHeader) (env : LoadEnv) (maxLength : Int)
  | embed (env : GraphEnv) (texts : List Bytes) (batchSize : Int)

namespace SparseSession

variable {α : Type} [Field α] [LinearOrder α] (fns : MathFns α)

/-- The session after a call. -/
def after (s : SparseSession) : SessionCall → Checked SparseSession
  | .load path file env maxLength => .ok (s.loadFromFile path file env maxLength).2
  | .embed env texts batchSize => (s.embed fns env texts batchSize).map Prod.snd

def Step (s : SparseSession) (call : SessionCall) (t : SparseSession) : Prop :=
  s.after fns call = .ok t

/-- The kept graph, if any, refers to the tensors of the weights the session holds. -/
def Current (s : SparseSession) : Prop :=
  ∀ g, s.graph = some g → s.weights = some g.weights ∧ g.generation = s.generation

/-- The session as it would be if it kept no graph. -/
def withoutGraph (s : SparseSession) : SparseSession := { s with graph := none }

/-- A session that computes with the weights of its last successful load: now, between the
batches of every call, and in what a call returns. -/
structure Serves (s : SparseSession) : Prop where
  current : s.Current
  batches : ∀ env w batchSize texts k results t, s.weights = some w →
    forUpTo k (embedStep fns env w batchSize texts) ([], s) = .ok (results, t) →
      t.Current ∧ t.weights = s.weights
  results : ∀ env texts batchSize, env.build →
    (s.embed fns env texts batchSize).map Prod.fst =
      (s.withoutGraph.embed fns env texts batchSize).map Prod.fst

/-- Of a file the session accepts: no graph is kept when it is loaded. -/
def LoadsFresh (s : SparseSession) : SessionCall → Prop
  | .load path file env _ => (∃ o tokens, Opened path file env o tokens) → s.graph = none
  | .embed .. => True

-- ---------------------------------------------------------------------------
-- A batch
-- ---------------------------------------------------------------------------

variable {s : SparseSession} {w : Weights} {env : GraphEnv}

theorem current_of_none (h : s.graph = none) : s.Current := by
  intro g hg
  rw [h] at hg
  cases hg

/-- A kept graph is the one that would be built. -/
theorem Current.graphFor_eq (h : s.Current) (hw : s.weights = some w) :
    s.graphFor env w seqLen batch = some ⟨w, s.generation, seqLen, batch⟩ ∨
      s.graphFor env w seqLen batch = none ∧ ¬env.build := by
  unfold graphFor
  split
  · rename_i g hg
    obtain ⟨hkept, hshape⟩ := Option.filter_eq_some_iff.mp hg
    obtain ⟨hweights, hgeneration⟩ := h g hkept
    obtain ⟨rfl, rfl⟩ := of_decide_eq_true hshape
    obtain rfl := Option.some.inj (hweights.symm.trans hw)
    rw [← hgeneration]
    exact .inl rfl
  · by_cases hbuild : env.build
    · exact .inl (if_pos hbuild)
    · exact .inr ⟨if_neg hbuild, hbuild⟩

theorem current_built (hw : s.weights = some w) (seqLen batch : Nat) :
    Current { s with graph := some ⟨w, s.generation, seqLen, batch⟩ } := by
  intro g hg
  cases hg
  exact ⟨hw, rfl⟩

/-- A computation leaves the graph it ran on. -/
theorem runGraph_state
    (hrun : s.runGraph fns env w tokens positions valid seqLen batch = .ok (logits, t)) :
    t = { s with graph := s.graphFor env w seqLen batch } := by
  unfold SparseSession.runGraph at hrun
  cases hgraph : s.graphFor env w seqLen batch with
  | none =>
    rw [hgraph] at hrun
    cases hrun
    rfl
  | some g =>
    rw [hgraph] at hrun
    simp only [bind_ok] at hrun
    obtain ⟨_, -, hrun⟩ := hrun
    split at hrun
    · simp only [bind_ok] at hrun
      obtain ⟨_, -, _, -, hrun⟩ := hrun
      cases hrun
      rfl
    · cases hrun
      rfl

theorem embedBatch_state (hrun : s.embedBatch fns env w texts = .ok (results, t)) :
    t = if (s.tok.encodeBatch texts).seqLength = 0 then s else
      { s with graph := s.graphFor env w (s.tok.encodeBatch texts).seqLength texts.length } := by
  unfold SparseSession.embedBatch at hrun
  dsimp only at hrun
  split at hrun
  · cases hrun
    rw [if_pos ‹_›]
  · simp only [bind_ok] at hrun
    obtain ⟨_, -, ⟨logits, u⟩, hlogits, hrun⟩ := hrun
    have hstate : t = u := by
      cases logits with
      | none =>
        cases hrun
        rfl
      | some logits =>
        simp only [bind_ok] at hrun
        obtain ⟨_, -, hrun⟩ := hrun
        cases hrun
        rfl
    rw [if_neg ‹_›, hstate]
    exact runGraph_state fns hlogits

theorem Current.embedBatch (h : s.Current) (hw : s.weights = some w)
    (hrun : s.embedBatch fns env w texts = .ok (results, t)) :
    t.Current ∧ t.withoutGraph = s.withoutGraph := by
  obtain rfl := embedBatch_state fns hrun
  split
  · exact ⟨h, rfl⟩
  · refine ⟨?_, rfl⟩
    have hgraph := @Current.graphFor_eq _ _ env (s.tok.encodeBatch texts).seqLength texts.length h hw
    rcases hgraph with hsome | ⟨hnone, -⟩
    · rw [hsome]
      exact current_built hw _ _
    · rw [hnone]
      exact current_of_none rfl

/-- With room to build a graph, a batch makes the same of a session whichever current graph
it keeps. -/
theorem Current.embedBatch_congr {graph : Option CachedGraph} (h : s.Current)
    (h' : Current { s with graph }) (hw : s.weights = some w) (hbuild : env.build)
    (texts : List Bytes) : (s.embedBatch fns env w texts).map Prod.fst =
      (SparseSession.embedBatch fns { s with graph } env w texts).map Prod.fst := by
  have hgraph : s.runGraph fns env w = SparseSession.runGraph fns { s with graph } env w := by
    funext tokens positions valid seqLen batch
    have hbuilt : s.graphFor env w seqLen batch = some ⟨w, s.generation, seqLen, batch⟩ :=
      (h.graphFor_eq hw).resolve_right fun hnone => hnone.2 hbuild
    have hbuilt' : graphFor { s with graph } env w seqLen batch =
        some ⟨w, s.generation, seqLen, batch⟩ :=
      (h'.graphFor_eq hw).resolve_right fun hnone => hnone.2 hbuild
    simp only [SparseSession.runGraph, hbuilt, hbuilt']
  unfold SparseSession.embedBatch
  rw [hgraph]
  dsimp only
  split
  · rfl
  · rfl

-- ---------------------------------------------------------------------------
-- A call
-- ---------------------------------------------------------------------------

theorem weights_of_withoutGraph {t : SparseSession} (h : t.withoutGraph = s.withoutGraph) :
    t.weights = s.weights := by
  have hweights := congrArg SparseSession.weights h
  exact hweights

theorem Current.batches (h : s.Current) (hw : s.weights = some w) {batchSize k : Nat}
    (hrun : forUpTo k (embedStep fns env w batchSize texts) ([], s) = .ok (results, t)) :
    t.Current ∧ t.withoutGraph = s.withoutGraph := by
  refine forUpTo_invariant (fun _ state => state.2.Current ∧
    state.2.withoutGraph = s.withoutGraph) ⟨h, rfl⟩ ?_ hrun
  rintro k ⟨results, t⟩ ⟨results', u⟩ - ⟨hcurrent, hkept⟩ hstep
  simp only [embedStep, bind_ok] at hstep
  obtain ⟨⟨batch, u'⟩, hbatch, hstep⟩ := hstep
  cases hstep
  have hweights := (weights_of_withoutGraph hkept).trans hw
  obtain ⟨hcurrent', hsame⟩ := hcurrent.embedBatch fns hweights hbatch
  exact ⟨hcurrent', hsame.trans hkept⟩

theorem eq_of_withoutGraph {t : SparseSession} (h : t.withoutGraph = s.withoutGraph) :
    t = { s with graph := t.graph } := by
  cases s
  cases t
  cases h
  rfl

/-- Two sessions over the same weights that differ in their current graphs alone. -/
structure Alike (w : Weights) (s t : SparseSession) : Prop where
  weights : s.weights = some w
  left : s.Current
  right : t.Current
  same : t.withoutGraph = s.withoutGraph

theorem Alike.embedBatch {t : SparseSession} (h : Alike w s t) (hbuild : env.build)
    (texts : List Bytes) : (s.embedBatch fns env w texts).map Prod.fst =
      (t.embedBatch fns env w texts).map Prod.fst := by
  obtain ⟨hw, hs, ht, hsame⟩ := h
  rw [eq_of_withoutGraph hsame] at ht ⊢
  exact hs.embedBatch_congr fns ht hw hbuild texts

theorem Alike.after {t s' t' : SparseSession} (h : Alike w s t)
    (hs : s.embedBatch fns env w texts = .ok (results, s'))
    (ht : t.embedBatch fns env w texts = .ok (results', t')) : Alike w s' t' := by
  obtain ⟨hleft, hsame⟩ := h.left.embedBatch fns h.weights hs
  obtain ⟨hright, hsame'⟩ :=
    h.right.embedBatch fns ((weights_of_withoutGraph h.same).trans h.weights) ht
  exact ⟨(weights_of_withoutGraph hsame).trans h.weights, hleft, hright,
    (hsame'.trans h.same).trans hsame.symm⟩

/-- One round over sessions that are alike. -/
theorem Alike.embedStep {t : SparseSession} (h : Alike w s t) (hbuild : env.build)
    (batchSize : Nat) (texts : List Bytes) (results : List (SparseResult α)) (k : Nat) :
    (embedStep fns env w batchSize texts (results, s) k).map Prod.fst =
        (embedStep fns env w batchSize texts (results, t) k).map Prod.fst ∧
      ∀ p q, SparseSession.embedStep fns env w batchSize texts (results, s) k = .ok p →
        SparseSession.embedStep fns env w batchSize texts (results, t) k = .ok q →
          p.1 = q.1 ∧ Alike w p.2 q.2 := by
  have hbatch := h.embedBatch fns hbuild (slice batchSize texts k)
  simp only [SparseSession.embedStep]
  cases hs : s.embedBatch fns env w (slice batchSize texts k) with
  | error e =>
    cases ht : t.embedBatch fns env w (slice batchSize texts k) with
    | error e' =>
      rw [hs, ht] at hbatch
      cases hbatch
      exact ⟨rfl, fun _ _ hp => by cases hp⟩
    | ok q =>
      rw [hs, ht] at hbatch
      cases hbatch
  | ok p =>
    cases ht : t.embedBatch fns env w (slice batchSize texts k) with
    | error e =>
      rw [hs, ht] at hbatch
      cases hbatch
    | ok q =>
      obtain ⟨batch, s'⟩ := p
      obtain ⟨batch', t'⟩ := q
      rw [hs, ht] at hbatch
      cases hbatch
      refine ⟨rfl, fun p q hp hq => ?_⟩
      cases hp
      cases hq
      exact ⟨rfl, h.after fns hs ht⟩

theorem Current.serves (h : s.Current) : s.Serves fns where
  current := h
  batches _ _ _ _ _ _ _ hw hrun := by
    obtain ⟨hcurrent, hsame⟩ := h.batches fns hw hrun
    exact ⟨hcurrent, weights_of_withoutGraph hsame⟩
  results env texts batchSize hbuild := by
    cases hw : s.weights with
    | none =>
      have hw' : s.withoutGraph.weights = none := hw
      simp only [embed, hw, hw']
      rfl
    | some w =>
      have halike : Alike w s s.withoutGraph := ⟨hw, h, current_of_none rfl, rfl⟩
      have hw' : s.withoutGraph.weights = some w := hw
      rw [embed_of_weights fns hw, embed_of_weights fns hw']
      refine (forUpTo_simulation (fun p q => p.1 = q.1 ∧ Alike w p.2 q.2) ⟨rfl, halike⟩
        (fun _ _ hpq => hpq.1) ?_).1
      rintro k ⟨results, s'⟩ ⟨results', t'⟩ - ⟨rfl, halike'⟩
      exact halike'.embedStep fns hbuild _ texts results k

theorem serves_new : SparseSession.new.Serves fns := Current.serves fns (current_of_none rfl)

/-- What a call leaves computes with the current weights unless the call is a load over a
kept graph. -/
theorem Serves.step (h : s.Serves fns) (hstep : s.Step fns call t) :
    t.Serves fns ↔ s.LoadsFresh call := by
  cases call with
  | load path file env maxLength =>
    cases hstep
    rcases s.loadFromFile_cases path file env maxLength with ⟨err, hload⟩ |
      ⟨o, tokens, tok, hopened, -, hload⟩
    · rw [hload]
      refine iff_of_true h fun hopened => ?_
      have hok := (s.loadFromFile_ok path file env maxLength).mpr hopened
      rw [hload] at hok
      cases hok
    · rw [hload]
      constructor
      · intro hserves _
        refine Option.eq_none_iff_forall_ne_some.mpr fun g hg => ?_
        obtain ⟨-, hbefore⟩ := h.current g hg
        obtain ⟨-, hafter⟩ := hserves.current g hg
        rw [hbefore] at hafter
        exact Nat.succ_ne_self _ hafter.symm
      · intro hfresh
        exact Current.serves fns (current_of_none (hfresh ⟨o, tokens, hopened⟩))
  | embed env texts batchSize =>
    refine iff_of_true (Current.serves fns ?_) trivial
    obtain ⟨⟨results, u⟩, hembed, rfl⟩ := map_ok.mp hstep
    cases hw : s.weights with
    | none =>
      simp only [embed, hw] at hembed
      cases hembed
      exact h.current
    | some w =>
      rw [embed_of_weights fns hw] at hembed
      exact (h.batches env w _ texts _ results u hw hembed).1

/-- A run computes with the weights of its last successful load throughout, exactly when
every accepted file is loaded while no graph is kept. -/
theorem serves_always_iff (calls : List SessionCall) :
    Always (Step fns) .new calls (Serves fns) ↔ EveryStep (Step fns) .new calls LoadsFresh :=
  always_iff_everyStep (serves_new fns) fun _ _ _ hserves hstep => hserves.step fns hstep

-- ---------------------------------------------------------------------------
-- A load over a kept graph
-- ---------------------------------------------------------------------------

theorem embed_single (hw : s.weights = some w) (env : GraphEnv) (text : Bytes) :
    s.embed fns env [text] 1 = s.embedBatch fns env w [text] := by
  have hcount : sliceCount (batchOf 1) [text].length = 1 := Nat.div_self Nat.one_pos
  have hslice : slice (batchOf 1) [text] 0 = [text] := rfl
  rw [embed_of_weights fns hw, hcount, forUpTo_succ, forUpTo_zero, ok_bind]
  simp only [SparseSession.embedStep, hslice, List.nil_append]
  cases s.embedBatch fns env w [text] with
  | error e => rfl
  | ok p => rfl

/-- A batch of the kept shape runs on tensors that have been freed. -/
theorem embedBatch_dangling (hgraph : s.graph = some g) (hstale : g.generation ≠ s.generation)
    (hseq : (s.tok.encodeBatch texts).seqLength = g.seqLen) (hpos : g.seqLen ≠ 0)
    (hbatch : texts.length = g.batch) (hfits : FitsInt ((g.batch : Int) * g.seqLen)) :
    s.embedBatch fns env w texts = .error .dangling := by
  have hfound : s.graphFor env w g.seqLen g.batch = some g := by
    unfold graphFor
    rw [hgraph]
    simp [Option.filter]
  unfold SparseSession.embedBatch
  dsimp only
  rw [hseq, if_neg hpos, hbatch, mulInt, narrow_eq hfits, ok_bind]
  unfold SparseSession.runGraph
  rw [hfound]
  dsimp only
  rw [ensure, if_neg hstale]
  rfl

/-- A load over a current graph leaves a session ready for every text. -/
theorem Loaded.ready (h : s.Loaded w) (hcurrent : s.Current) (hrunnable : w.Runnable)
    (hpositions : s.tok.maxLength ≤ w.head.posEmbd.ne1) : s.Ready w where
  weights := h.weights
  graph g hg := by
    obtain ⟨hweights, hgeneration⟩ := hcurrent g hg
    exact ⟨hgeneration, Option.some.inj (hweights.symm.trans h.weights)⟩
  ids := h.ids
  vocabSize := h.vocabSize
  runnable := hrunnable
  positions := hpositions

/-- What a load of the sample leaves. -/
theorem sample_loaded (s : SparseSession) : ∃ s' w,
    s.loadFromFile (some (ascii "a.gguf")) (some (sampleHeader [] 4)) .ample 0 = (.ok (), s') ∧
      s'.Loaded w ∧ w.Runnable ∧ s'.tok.maxLength ≤ w.head.posEmbd.ne1 ∧ s'.tok.maxLength = 4 ∧
      s'.graph = s.graph ∧ s'.generation = s.generation + 1 := by
  obtain ⟨s', hload⟩ : ∃ s', s.loadFromFile (some (ascii "a.gguf")) (some (sampleHeader [] 4))
      .ample 0 = (.ok (), s') := by
    have hopened := (loadFromFile_ok ..).mp sample_loads
    exact ⟨_, Prod.ext ((s.loadFromFile_ok ..).mpr hopened) rfl⟩
  obtain ⟨w, hloaded, hparams, hlength, hshaped, hpositions, hgraph⟩ :=
    sample_consistent.loaded sample_hparams hload
  obtain ⟨-, -, -, -, -, hgeneration, -⟩ := loadFromFile_loaded hload
  have heps : w.hparams.eps ≠ .nan := by
    rw [hparams]
    simp [sampleHparams]
  have hfour : cappedLength 0 sampleHparams.nPos = 4 := rfl
  refine ⟨s', w, hload, hloaded, ⟨hshaped, hloaded.sound heps⟩, hpositions, ?_, hgraph, hgeneration⟩
  have hmax := hloaded.maxLength
  rw [hlength, hfour] at hmax
  exact_mod_cast hmax

def sampleCalls : List SessionCall :=
  let load : SessionCall := .load (some (ascii "a.gguf")) (some (sampleHeader [] 4)) .ample 0
  [load, .embed .ample [TokenizerWrapper.marks 4] 1, load]

/-- After the same file has been loaded twice with a call between, the next call of that
shape runs on the freed tensors of the first load. -/
theorem stale_after_reload : ∃ s, Run (Step plainFns) .new sampleCalls s ∧
    ¬s.Serves plainFns ∧
      s.embed plainFns .ample [TokenizerWrapper.marks 4] 1 = .error .dangling := by
  obtain ⟨s₁, w, hload₁, hloaded, hrunnable, hpositions, hlength₁, hgraph₁, -⟩ :=
    sample_loaded .new
  have hready := hloaded.ready (current_of_none hgraph₁) hrunnable hpositions
  have hseq₁ : (s₁.tok.encodeBatch [TokenizerWrapper.marks 4]).seqLength = 4 := by
    rw [← hlength₁, s₁.tok.seqLength_marks]
  obtain ⟨graph, hbatch, -⟩ := embedBatch_ready plainFns hready [TokenizerWrapper.marks 4]
    (by rw [hseq₁]; decide)
  have hstate := embedBatch_state plainFns hbatch
  rw [hseq₁, if_neg (by decide)] at hstate
  have hbuilt : graph = some ⟨w, s₁.generation, 4, 1⟩ := by
    have hgraph := congrArg SparseSession.graph hstate
    dsimp only at hgraph
    rw [hgraph, graphFor, hgraph₁]
    rfl
  obtain ⟨s₃, _, hload₃, hloaded₃, -, -, hlength₃, hgraph₃, hgeneration₃⟩ :=
    sample_loaded { s₁ with graph }
  dsimp only at hgraph₃ hgeneration₃
  rw [hbuilt] at hgraph₃
  have hstale : s₁.generation ≠ s₃.generation := by
    rw [hgeneration₃]
    exact (Nat.succ_ne_self _).symm
  refine ⟨s₃, ?_, fun hserves => hstale (hserves.current _ hgraph₃).2, ?_⟩
  · refine Run.cons_iff.mpr ⟨s₁, ?_, Run.cons_iff.mpr ⟨{ s₁ with graph }, ?_,
      Run.cons_iff.mpr ⟨s₃, ?_, .start⟩⟩⟩
    · exact congrArg (fun p => Except.ok p.2) hload₁
    · rw [Step, SparseSession.after, embed_single plainFns hloaded.weights, hbatch]
      rfl
    · exact congrArg (fun p => Except.ok p.2) hload₃
  · rw [embed_single plainFns hloaded₃.weights]
    have hfits : FitsInt 4 := by decide
    refine embedBatch_dangling plainFns hgraph₃ hstale ?_ (Nat.succ_ne_zero 3) rfl hfits
    rw [← hlength₃, s₃.tok.seqLength_marks]

end SparseSession

end LibEmbedding
