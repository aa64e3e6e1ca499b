import LibEmbedding.DenseBackends

/-!
# The two loops of the llama.cpp path

What the result matrix and the stream hold after all texts, and exactly when both loops
stay inside their buffers. The stream copies every vector through a fixed buffer of
`LEMBED_MAX_DIM` places.
-/

namespace LibEmbedding

open Foundation

/-- What a caller gets of the rows of a matrix: the first ones before an exception,
or all of them. -/
def StreamsRows (dim n : Nat) (data : List ℚ) (delivered : List (List ℚ)) (threw : Bool) : Prop :=
  ∃ m ≤ n, delivered = ((List.range m).map fun i => row dim i data) ∧ (threw = false → m = n)

namespace LlamaEmbedder

/-- The session throws or returns a vector of the dimension of the context. -/
def Sized (e : LlamaEmbedder) : Prop :=
  ∀ text, e.session text = .threw ∨ ∃ v, e.session text = .returned v ∧ v.length = e.dim

variable {e : LlamaEmbedder} {texts : List Bytes}

theorem embedSingle_total (he : e.Sized) {out : List ℚ} {off : Nat}
    (hroom : off + e.dim ≤ out.length) (text : Bytes) :
    e.session text = .threw ∧ e.embedSingle text out off = .ok .threw ∨
    ∃ v next, e.session text = .returned v ∧ v.length = e.dim ∧ writeAt out off v = .ok next ∧
      e.embedSingle text out off = .ok (.returned next) := by
  rcases he text with hthrew | ⟨v, hv, hlen⟩
  · exact .inl ⟨hthrew, by rw [embedSingle, hthrew]⟩
  · have hread : readAt v 0 e.dim = .ok v :=
      readAt_ok.mpr ⟨by omega, by rw [List.drop_zero, List.take_of_length_le hlen.le]⟩
    have hwrite := writeAt_ok.mpr ⟨hlen ▸ hroom, rfl⟩
    refine .inr ⟨v, _, hv, hlen, hwrite, ?_⟩
    simp only [embedSingle, hv, hread, ok_bind, hwrite]
    rfl

-- ---------------------------------------------------------------------------
-- `lembed__llama_embed_batch`
-- ---------------------------------------------------------------------------

/-- The vectors of the first `k` texts are in the matrix. -/
def MatrixHolds (e : LlamaEmbedder) (texts : List Bytes) (k : Nat) (data : List ℚ) : Prop :=
  data.length = texts.length * e.dim ∧ ∀ i < k, ∀ text, texts[i]? = some text →
    e.session text = .returned (row e.dim i data)

theorem embedText_total (he : e.Sized) {k : Nat} (hk : k < texts.length)
    (hdata : e.MatrixHolds texts k data) :
    e.embedText texts (.returned data) k = .ok .threw ∨
    ∃ next, e.embedText texts (.returned data) k = .ok (.returned next) ∧
      e.MatrixHolds texts (k + 1) next := by
  have htext := get_ok.mpr (List.getElem?_eq_getElem hk)
  have hroom : k * e.dim + e.dim ≤ data.length := hdata.1 ▸ row_bound hk e.dim
  rcases embedSingle_total he hroom texts[k] with ⟨-, hthrew⟩ | ⟨v, next, hv, hlen, hwrite, hstep⟩
  · exact .inl (by simp only [embedText, htext, ok_bind, hthrew])
  · refine .inr ⟨next, by simp only [embedText, htext, ok_bind, hstep],
      (length_of_writeAt hwrite).trans hdata.1, fun i hi text hi' => ?_⟩
    rcases Nat.lt_succ_iff_lt_or_eq.mp hi with hlt | rfl
    · rw [row_of_writeAt_ne hwrite hlen (by omega)]
      exact hdata.2 i hlt text hi'
    · cases (List.getElem?_eq_getElem hk).symm.trans hi'
      rw [row_of_writeAt hwrite hlen, hv]

/-- The batch throws or fills the matrix with normalised vectors. -/
theorem llamaEmbedBatch_total (he : e.Sized) {data : List ℚ}
    (hdata : data.length = texts.length * e.dim)
    (hfits : FitsInt (((texts.length - 1 : Nat) : Int) * e.dim)) :
    e.llamaEmbedBatch texts data = .ok .threw ∨
    ∃ out, e.llamaEmbedBatch texts data = .ok (.returned out) ∧
      ∀ i text, texts[i]? = some text → ∃ v, e.session text = .returned v ∧
        row e.dim i out = normalizeRow e.sqrt v := by
  have hloop : ∃ s, forUpTo texts.length (e.embedText texts) (.returned data) = .ok s ∧
      ∀ r, s = .returned r → e.MatrixHolds texts texts.length r := by
    refine forUpTo_total (fun k (s : Outcome (List ℚ)) =>
      ∀ r, s = .returned r → e.MatrixHolds texts k r) ?_ ?_
    · rintro r ⟨⟩
      exact ⟨hdata, fun i hi => by omega⟩
    · intro k s hk hs
      cases s with
      | threw => exact ⟨.threw, rfl, nofun⟩
      | returned r =>
        rcases embedText_total he hk (hs r rfl) with hthrew | ⟨next, hnext, hholds⟩
        · exact ⟨.threw, hthrew, nofun⟩
        · refine ⟨_, hnext, ?_⟩
          rintro _ ⟨⟩
          exact hholds
  obtain ⟨s, hs, hholds⟩ := hloop
  cases s with
  | threw => exact .inl (by rw [llamaEmbedBatch, hs]; rfl)
  | returned filled =>
    obtain ⟨hlen, hrows⟩ := hholds filled rfl
    obtain ⟨out, hnorm, -, hout⟩ := l2Normalize_normalizes e.sqrt hlen hfits
    refine .inr ⟨out, ?_, fun i text hi => ?_⟩
    · simp only [llamaEmbedBatch, hs, ok_bind, hnorm]
      rfl
    · have hi' := (List.getElem?_eq_some_iff.mp hi).1
      exact ⟨_, hrows i hi' text hi, hout i hi'⟩

-- ---------------------------------------------------------------------------
-- `lembed__llama_embed_stream`
-- ---------------------------------------------------------------------------

/-- The vectors of the first texts are delivered, those before `k` unless the session
threw. -/
def Delivered (e : LlamaEmbedder) (texts : List Bytes) (k : Nat) (s : Stream) : Prop :=
  ∃ m ≤ k, List.Forall₂ (fun text vec => ∃ v, e.session text = .returned v ∧
      vec = normalizeRow e.sqrt v) (texts.take m) s.delivered ∧ (s.threw = false → m = k)

theorem streamText_total (he : e.Sized) (hdim : e.dim ≤ maxDim) {k : Nat} (hk : k < texts.length)
    (hs : e.Delivered texts k s) :
    ∃ t, e.streamText texts s k = .ok t ∧ e.Delivered texts (k + 1) t := by
  obtain ⟨m, hm, hdelivered, hmk⟩ := hs
  cases hthrew : s.threw with
  | true =>
    refine ⟨s, by rw [streamText, if_pos hthrew], m, by omega, hdelivered, fun h => ?_⟩
    cases hthrew.symm.trans h
  | false =>
    obtain rfl := hmk hthrew
    have htext := List.getElem?_eq_getElem hk
    have hroom : 0 + e.dim ≤ (malloc maxDim : List ℚ).length := by rw [length_malloc]; omega
    rcases embedSingle_total he hroom texts[m] with ⟨-, hthrow⟩ | ⟨v, emb, hv, hlen, hwrite, hstep⟩
    · refine ⟨{ s with threw := true }, ?_, m, by omega, hdelivered, nofun⟩
      simp only [streamText, hthrew, get_ok.mpr htext, ok_bind, hthrow]
      rfl
    · have hemb : e.dim ≤ emb.length := by
        rw [length_of_writeAt hwrite]
        omega
      obtain ⟨out, hnorm, hout, hrow⟩ := l2Normalize_first e.sqrt hemb
      have hread : readAt out 0 e.dim = .ok (normalizeRow e.sqrt v) := by
        refine readAt_ok.mpr ⟨by omega, ?_⟩
        have hwrite : writeAt (malloc maxDim : List ℚ) (0 * e.dim) v = .ok emb := by
          rwa [Nat.zero_mul]
        rw [← row_of_writeAt hwrite hlen, ← hrow, row, Nat.zero_mul]
      refine ⟨{ s with delivered := s.delivered ++ [normalizeRow e.sqrt v] }, ?_,
        m + 1, le_rfl, ?_, fun _ => rfl⟩
      · simp only [streamText, hthrew, get_ok.mpr htext, ok_bind, hstep, hnorm, hread]
        rfl
      · rw [List.take_add_one, htext]
        exact List.rel_append hdelivered (.cons ⟨v, hv, rfl⟩ .nil)

theorem llamaEmbedStream_total (he : e.Sized) (hdim : texts ≠ [] → e.dim ≤ maxDim) :
    ∃ out, e.llamaEmbedStream texts = .ok out ∧ e.Delivered texts texts.length out := by
  refine forUpTo_total (e.Delivered texts) ⟨0, le_rfl, .nil, fun _ => rfl⟩ fun k s hk hs => ?_
  exact streamText_total he (hdim (List.ne_nil_of_length_pos ((Nat.zero_le k).trans_lt hk))) hk hs

-- ---------------------------------------------------------------------------
-- Agreement
-- ---------------------------------------------------------------------------

/-- Neither path leaves its buffers, and the stream gets the rows of the matrix. -/
def Agrees (e : LlamaEmbedder) (texts : List Bytes) : Prop :=
  ∀ data, data.length = texts.length * e.dim → ∃ out stream,
    e.llamaEmbedBatch texts data = .ok out ∧ e.llamaEmbedStream texts = .ok stream ∧
    ∀ filled, out = .returned filled →
      StreamsRows e.dim texts.length filled stream.delivered stream.threw

/-- The offsets of the matrix are `int`s, and a vector fits the buffer of the stream. -/
structure Fits (dim n : Nat) : Prop where
  offsets : FitsInt (((n - 1 : Nat) : Int) * dim)
  room : 0 < n → dim ≤ maxDim

theorem agrees_of_fits (he : e.Sized) (h : Fits e.dim texts.length) : e.Agrees texts := by
  intro data hdata
  obtain ⟨stream, hstream, m, hm, hdelivered, hmn⟩ :=
    llamaEmbedStream_total he fun hne => h.room (List.length_pos_iff.mpr hne)
  rcases llamaEmbedBatch_total he hdata h.offsets with hthrew | ⟨out, hout, hrows⟩
  · exact ⟨_, stream, hthrew, hstream, nofun⟩
  · refine ⟨_, stream, hout, hstream, ?_⟩
    rintro _ ⟨⟩
    refine ⟨m, hm, ?_, hmn⟩
    obtain ⟨hlen, hvecs⟩ := List.forall₂_iff_get.mp hdelivered
    rw [List.length_take_of_le hm] at hlen
    refine List.ext_getElem (by simpa using hlen.symm) fun i hi _ => ?_
    obtain ⟨v, hv, hvec⟩ := hvecs i (by rw [List.length_take_of_le hm]; omega) hi
    obtain ⟨w, hw, hrow⟩ := hrows i texts[i] (List.getElem?_eq_getElem (by omega))
    have hget : (texts.take m).get ⟨i, by rw [List.length_take_of_le hm]; omega⟩ = texts[i] := by
      simp
    rw [hget] at hv
    cases hv.symm.trans hw
    rw [List.getElem_map, List.getElem_range, hrow]
    exact hvec

/-- Both paths could only run with offsets that are `int`s and vectors that fit. -/
theorem fits_of_agrees (hsession : ∀ text, ∃ v, e.session text = .returned v)
    (h : e.Agrees texts) : Fits e.dim texts.length := by
  obtain ⟨out, stream, hbatch, hstream, -⟩ :=
    h (List.replicate (texts.length * e.dim) 0) List.length_replicate
  obtain ⟨s, hs, hbatch⟩ := bind_ok.mp hbatch
  have hreturned : ∃ r, s = .returned r := by
    refine forUpTo_invariant (fun _ s => ∃ r, s = .returned r) ⟨_, rfl⟩ ?_ hs
    rintro i _ t hi ⟨r, rfl⟩ hstep
    obtain ⟨text, -, hstep⟩ := bind_ok.mp hstep
    obtain ⟨v, hv⟩ := hsession text
    simp only [embedSingle, hv, bind_ok, pure_ok] at hstep
    obtain ⟨-, -, next, -, rfl⟩ := hstep
    exact ⟨next, rfl⟩
  obtain ⟨r, rfl⟩ := hreturned
  obtain ⟨normalized, hnorm, -⟩ := bind_ok.mp hbatch
  constructor
  · rcases Nat.eq_zero_or_pos texts.length with hzero | hpos
    · rw [hzero, Nat.zero_sub, Nat.cast_zero, zero_mul]
      decide
    · exact l2Normalize_fits hpos hnorm
  · intro hpos
    obtain ⟨s, t, hs, hstep⟩ := forUpTo_ran hstream hpos
    cases hs
    obtain ⟨text, -, hstep⟩ := bind_ok.mp hstep
    obtain ⟨v, hv⟩ := hsession text
    obtain ⟨emb, hemb, -⟩ := bind_ok.mp hstep
    simp only [embedSingle, hv, bind_ok] at hemb
    obtain ⟨vec, hread, next, hwrite, -⟩ := hemb
    have hroom := (writeAt_ok.mp hwrite).1
    rwa [length_of_readAt hread, length_malloc, Nat.zero_add] at hroom

end LlamaEmbedder

end LibEmbedding
