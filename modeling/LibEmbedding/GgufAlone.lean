import LibEmbedding.GgufReload

/-!
# A document in its batch and alone

A session that has loaded a consistent file and keeps no stale graph gives each document of
a call what it gives the document alone, as long as the tokens of a batch can be counted.
-/

namespace LibEmbedding

open Foundation

namespace SparseSession

variable {α : Type} [Field α] [LinearOrder α] (fns : MathFns α)
variable {s : SparseSession} {w : Weights}

/-- The call completes, and each of its results is the one of the document alone, in a call
of any batch size. -/
def EachAlone (s : SparseSession) (texts : List Bytes) (batchSize : Int) : Prop :=
  ∃ results t, s.embed fns .ample texts batchSize = .ok (results, t) ∧
    List.Forall₂ (fun text result => ∀ size, ∃ u,
      s.embed fns .ample [text] size = .ok ([result], u)) texts results

/-- No batch is larger than the longest sequences allow. -/
theorem fits_of_le {texts : List Bytes} {batchSize : Int}
    (h : ∀ k, (((slice (batchOf batchSize) texts k).length * s.tok.maxLength : Nat) : Int) ≤
      intMax) : s.Fits texts batchSize := by
  intro k _
  refine le_trans (Int.ofNat_le.mpr (Nat.mul_le_mul_left _ ?_)) (h k)
  exact min_le_right ..

theorem Loaded.fits_single (h : s.Loaded w) (text : Bytes) (batchSize : Int) :
    s.Fits [text] batchSize := by
  refine fits_of_le fun k => ?_
  have hone : (slice (batchOf batchSize) [text] k).length ≤ 1 := by
    rw [length_slice]
    exact (min_le_right ..).trans (Nat.sub_le ..)
  calc (((slice (batchOf batchSize) [text] k).length * s.tok.maxLength : Nat) : Int)
      ≤ ((1 * s.tok.maxLength : Nat) : Int) := Int.ofNat_le.mpr (Nat.mul_le_mul_right _ hone)
    _ = s.maxLength := by rw [Nat.one_mul, h.maxLength]
    _ ≤ intMax := h.maxLengthFits

theorem embedEach_of_weights (h : s.weights = some w) (graphs : Nat → GraphEnv)
    (texts : List Bytes) (batchSize : Int) : s.embedEach fns graphs texts batchSize =
      forUpTo (sliceCount (batchOf batchSize) texts.length)
        (fun state k => embedStep fns (graphs k) w (batchOf batchSize) texts state k) ([], s) := by
  simp only [embedEach, h]

/-- A call that completes has counted the tokens of all its batches. -/
theorem fits_of_embedEach (hw : s.weights = some w) {graphs : Nat → GraphEnv}
    {texts : List Bytes} {batchSize : Int}
    (hrun : s.embedEach fns graphs texts batchSize = .ok (results, t)) :
    s.Fits texts batchSize := by
  rw [embedEach_of_weights fns hw] at hrun
  intro k hk
  obtain ⟨⟨before, u⟩, after, hbefore, hround⟩ := forUpTo_ran hrun hk
  have htok : u.tok = s.tok := by
    refine forUpTo_invariant (fun _ state => state.2.tok = s.tok) rfl ?_ hbefore
    rintro i ⟨results, v⟩ next _ hv hstep
    simp only [embedStep, bind_ok] at hstep
    obtain ⟨⟨_, v'⟩, hbatch, hstep⟩ := hstep
    cases hstep
    obtain rfl := embedBatch_state fns hbatch
    dsimp only at hv ⊢
    split
    · exact hv
    · exact hv
  simp only [embedStep, bind_ok] at hround
  obtain ⟨_, hbatch, -⟩ := hround
  unfold SparseSession.embedBatch at hbatch
  rw [htok] at hbatch
  dsimp only at hbatch
  split at hbatch
  · rename_i hzero
    rw [hzero, Nat.mul_zero]
    decide
  · simp only [bind_ok] at hbatch
    obtain ⟨_, hproduct, -⟩ := hbatch
    have hfits := (narrow_ok.mp hproduct).1.2
    exact_mod_cast hfits

/-- Each document is embedded as if it were alone exactly when every batch of the call has
a number of tokens, padding included, that an `int` holds. -/
theorem each_alone_iff (h : s.Loaded w) (hcurrent : s.Current) (hshaped : w.Shaped)
    (hpositions : s.tok.maxLength ≤ w.head.posEmbd.ne1) (heps : w.hparams.eps ≠ .nan)
    (texts : List Bytes) (batchSize : Int) :
    s.EachAlone fns texts batchSize ↔ s.Fits texts batchSize := by
  have hready := h.ready hcurrent ⟨hshaped, h.sound heps⟩ hpositions
  constructor
  · rintro ⟨results, t, hrun, -⟩
    rw [← embedEach_const] at hrun
    exact fits_of_embedEach fns h.weights hrun
  · intro hfits
    obtain ⟨graph, hrun, -⟩ := embed_ready fns hready texts batchSize hfits
    refine ⟨_, _, hrun, ?_⟩
    rw [List.forall₂_map_right_iff, List.forall₂_same]
    intro text _ size
    obtain ⟨graph', halone, -⟩ := embed_ready fns hready [text] size (h.fits_single text size)
    exact ⟨_, halone⟩

theorem eps_ne_nan (h : w.Runnable) : w.hparams.eps ≠ .nan := by
  intro hnan
  have heps := h.hparams.eps
  rw [hnan] at heps
  exact Bool.false_ne_true heps

theorem each_alone_sample : ∃ (s : SparseSession) (w : Weights), s.Loaded w ∧
    s.EachAlone plainFns [TokenizerWrapper.marks 4, [], ascii "a"] 2 := by
  obtain ⟨s, w, -, hloaded, hrunnable, hpositions, hlength, hgraph, -⟩ := sample_loaded .new
  have hfits : s.Fits [TokenizerWrapper.marks 4, [], ascii "a"] 2 := by
    refine fits_of_le fun k => ?_
    have htwo : (slice (batchOf 2) [TokenizerWrapper.marks 4, [], ascii "a"] k).length ≤ 2 := by
      rw [length_slice]
      exact min_le_left ..
    rw [hlength]
    exact (Int.ofNat_le.mpr (Nat.mul_le_mul_right 4 htwo)).trans (by decide)
  exact ⟨s, w, hloaded, (each_alone_iff plainFns hloaded (current_of_none hgraph)
    hrunnable.toShaped hpositions (eps_ne_nan hrunnable) _ _).mpr hfits⟩

/-- So many documents in one batch that their tokens cannot be counted. -/
theorem uncountable_batch : ∃ (s : SparseSession) (w : Weights), s.Loaded w ∧ s.graph = none ∧
    ¬s.EachAlone plainFns (List.replicate (2 ^ 29) (TokenizerWrapper.marks 4)) (2 ^ 29) := by
  obtain ⟨s, w, -, hloaded, -, -, hlength, hgraph, -⟩ := sample_loaded .new
  refine ⟨s, w, hloaded, hgraph, fun ⟨results, t, hrun, _⟩ => ?_⟩
  rw [← embedEach_const] at hrun
  have hfits := fits_of_embedEach plainFns hloaded.weights hrun
  have hbatch : batchOf (2 ^ 29) = 2 ^ 29 := by
    norm_num [batchOf]
    rfl
  have hmem : TokenizerWrapper.marks 4 ∈ List.replicate (2 ^ 29) (TokenizerWrapper.marks 4) :=
    List.mem_replicate.mpr ⟨(Nat.two_pow_pos 29).ne', rfl⟩
  have hslice : slice (2 ^ 29) (List.replicate (2 ^ 29) (TokenizerWrapper.marks 4)) 0 =
      List.replicate (2 ^ 29) (TokenizerWrapper.marks 4) := by
    rw [slice, Nat.zero_mul, List.drop_zero, List.take_of_length_le]
    rw [List.length_replicate]
  have hseq := s.tok.length_encode_le_seqLength hmem
  rw [← hlength, s.tok.length_encode_marks, hlength] at hseq
  have hcount := hfits 0 (by rw [hbatch, List.length_replicate, sliceCount]; norm_num)
  rw [hbatch, hslice, List.length_replicate] at hcount
  have hmore := Nat.mul_le_mul_left (2 ^ 29) hseq
  have hmax : intMax = 2147483647 := rfl
  omega

end SparseSession

end LibEmbedding
