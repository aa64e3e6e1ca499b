import LibEmbedding.Foundation.LongestMatch
import LibEmbedding.TokenizerAgree

/-!
# WordPiece

What `wordpiece_tokenize` appends for a word, against the greedy segmentation: the two nested
loops find it where it covers the word. Where it gets stuck behind the first piece, the ids of
the pieces before stay and no unknown id follows.
-/

namespace LibEmbedding

open Foundation

namespace TokenizerWrapper

variable (t : TokenizerWrapper) (word : Bytes)

/-- The entry of the piece between two places of a word. -/
def pieceId (start stop : Nat) : Option Int := t.vocab.lookup (t.piece word start (stop - start))

/-- The ids of the greedy segmentation, where it covers the word. -/
def Segments (ids : List Int) : Prop := Scan (t.pieceId word) word.length 0 ids word.length

/-- The greedy segmentation where it covers the word, and otherwise the unknown id alone. -/
structure GreedyOrUnknown (ids : List Int) : Prop where
  covered : ∀ segments, t.Segments word segments →
    t.wordpieceTokenize word ids = ids ++ segments
  unknown : (¬∃ segments, t.Segments word segments) →
    t.wordpieceTokenize word ids = ids ++ [t.unkTokenId]

variable {t word}

-- ---------------------------------------------------------------------------
-- The inner loop
-- ---------------------------------------------------------------------------

variable (t word) in
/-- The inner loop shrinks the piece until it has an entry. -/
theorem longestPiece_spec (start len : Nat) :
    (∃ id stop, t.longestPiece word start len = some (id, stop) ∧ start < stop ∧
      stop ≤ start + len ∧ t.pieceId word start stop = some id ∧
      ∀ stop', stop < stop' → stop' ≤ start + len → t.pieceId word start stop' = none) ∨
    t.longestPiece word start len = none ∧
      ∀ stop, start < stop → stop ≤ start + len → t.pieceId word start stop = none := by
  induction len with
  | zero => exact .inr ⟨rfl, fun stop hlt hle => by omega⟩
  | succ len ih =>
    have hpiece : t.pieceId word start (start + (len + 1)) =
        t.vocab.lookup (t.piece word start (len + 1)) := by
      rw [pieceId, Nat.add_sub_cancel_left]
    rw [longestPiece]
    cases hlookup : t.vocab.lookup (t.piece word start (len + 1)) with
    | some id =>
      exact .inl ⟨id, start + (len + 1), rfl, by omega, le_rfl, hpiece.trans hlookup,
        fun stop' hlt hle => by omega⟩
    | none =>
      have hlast (stop : Nat) (hle : stop ≤ start + (len + 1)) (hgt : ¬stop ≤ start + len) :
          t.pieceId word start stop = none := by
        obtain rfl : stop = start + (len + 1) := by omega
        exact hpiece.trans hlookup
      dsimp only
      rcases ih with ⟨id, stop, hsome, hlt, hle, hfound, hlonger⟩ | ⟨hnone, hall⟩
      · refine .inl ⟨id, stop, hsome, hlt, by omega, hfound, fun stop' hlt' hle' => ?_⟩
        by_cases hin : stop' ≤ start + len
        · exact hlonger stop' hlt' hin
        · exact hlast stop' hle' hin
      · refine .inr ⟨hnone, fun stop hlt hle => ?_⟩
        by_cases hin : stop ≤ start + len
        · exact hall stop hlt hin
        · exact hlast stop hle hin

/-- From within the word it finds the longest piece, or there is none. -/
theorem longestPiece_cases (hstart : start < word.length) :
    (∃ id stop, t.longestPiece word start (word.length - start) = some (id, stop) ∧
      Longest (t.pieceId word) word.length start stop id) ∨
    t.longestPiece word start (word.length - start) = none ∧
      Stuck (t.pieceId word) word.length start := by
  have hlength : start + (word.length - start) = word.length := by omega
  rcases longestPiece_spec t word start (word.length - start) with
    ⟨id, stop, hsome, hlt, hle, hfound, hlonger⟩ | ⟨hnone, hall⟩
  · rw [hlength] at hle hlonger
    exact .inl ⟨id, stop, hsome, hlt, hle, hfound, hlonger⟩
  · rw [hlength] at hall
    exact .inr ⟨hnone, hstart, hall⟩

-- ---------------------------------------------------------------------------
-- The outer loop
-- ---------------------------------------------------------------------------

/-- What the scan of a word comes to: its ids where it covers the word or took any piece. -/
def scanned (t : TokenizerWrapper) (foundAny : Bool) (segments : List Int) (covered : Bool) :
    List Int :=
  if covered || foundAny || !segments.isEmpty then segments else [t.unkTokenId]

/-- The outer loop runs the scan to its end. -/
theorem wordpieceLoop_scan (fuel start : Nat) (hstart : start ≤ word.length)
    (hfuel : word.length - start ≤ fuel) (foundAny : Bool) (ids : List Int) :
    ∃ segments last, Scan (t.pieceId word) word.length start segments last ∧
      Ended (t.pieceId word) word.length last ∧
      t.wordpieceLoop word fuel start foundAny ids =
        ids ++ t.scanned foundAny segments (last = word.length) := by
  induction fuel generalizing start foundAny ids with
  | zero =>
    obtain rfl : start = word.length := by omega
    refine ⟨[], word.length, .here, .inl rfl, ?_⟩
    simp [wordpieceLoop, scanned]
  | succ fuel ih =>
    rw [wordpieceLoop]
    by_cases hin : start < word.length
    · rw [if_pos hin]
      rcases longestPiece_cases (t := t) hin with ⟨id, stop, hsome, hlongest⟩ | ⟨hnone, hstuck⟩
      · have hlt := hlongest.lt
        obtain ⟨segments, last, hscan, hended, hloop⟩ :=
          ih stop hlongest.le (by omega) true (ids ++ [id])
        refine ⟨id :: segments, last, .next hlongest hscan, hended, ?_⟩
        rw [hsome]
        dsimp only
        rw [hloop, List.append_assoc]
        simp [scanned]
      · refine ⟨[], start, .here, .inr hstuck, ?_⟩
        rw [hnone]
        cases foundAny <;> simp [scanned, hin.ne]
    · obtain rfl : start = word.length := by omega
      refine ⟨[], word.length, .here, .inl rfl, ?_⟩
      simp [scanned]

/-- A whole word with an entry is its own longest piece. -/
theorem longest_whole {id : Int} (hne : word ≠ []) (h : t.vocab.lookup word = some id) :
    Longest (t.pieceId word) word.length 0 word.length id := by
  refine ⟨List.length_pos_of_ne_nil hne, le_rfl, ?_, fun stop hlt hle => by omega⟩
  rw [pieceId, piece, if_neg (Nat.lt_irrefl 0), List.nil_append, List.drop_zero, Nat.sub_zero,
    List.take_length, h]

/-- What is appended for a word, by the end of its scan. -/
theorem wordpieceTokenize_scan (hne : word ≠ []) (ids : List Int) :
    ∃ segments last, Scan (t.pieceId word) word.length 0 segments last ∧
      Ended (t.pieceId word) word.length last ∧
      t.wordpieceTokenize word ids = ids ++ t.scanned false segments (last = word.length) := by
  rw [wordpieceTokenize, if_neg hne]
  cases hlookup : t.vocab.lookup word with
  | some id =>
    refine ⟨[id], word.length, .next (longest_whole hne hlookup) .here, .inl rfl, ?_⟩
    simp [scanned]
  | none => exact wordpieceLoop_scan word.length 0 (Nat.zero_le _) (by omega) false ids

variable (t)

/-- A word gets its greedy segmentation, or the unknown id alone, exactly if the scan covers it,
finds no first piece, or gets stuck behind a single piece whose id is the unknown id. -/
theorem greedyOrUnknown_iff (c : UInt8) (rest : Bytes) (ids : List Int) :
    t.GreedyOrUnknown (c :: rest) ids ↔
      (∃ segments, t.Segments (c :: rest) segments) ∨
      Stuck (t.pieceId (c :: rest)) (c :: rest).length 0 ∨
      ∃ last, Scan (t.pieceId (c :: rest)) (c :: rest).length 0 [t.unkTokenId] last ∧
        Stuck (t.pieceId (c :: rest)) (c :: rest).length last := by
  obtain ⟨segments, last, hscan, hended, htokenize⟩ :=
    wordpieceTokenize_scan (t := t) (List.cons_ne_nil c rest) ids
  by_cases hcovers : last = (c :: rest).length
  · subst hcovers
    refine iff_of_true ⟨fun segments' hsegments => ?_, fun h => absurd ⟨segments, hscan⟩ h⟩
      (.inl ⟨segments, hscan⟩)
    obtain ⟨rfl, -⟩ := hscan.unique hended hsegments (.inl rfl)
    rw [htokenize]
    simp [scanned]
  · have hstuck := hended.resolve_left hcovers
    have hnot : ¬∃ segments, t.Segments (c :: rest) segments := by
      rintro ⟨segments', hsegments⟩
      exact hcovers (hscan.unique hended hsegments (.inl rfl)).2
    have hiff : t.GreedyOrUnknown (c :: rest) ids ↔
        t.scanned false segments (decide (last = (c :: rest).length)) = [t.unkTokenId] := by
      constructor
      · intro h
        have hunknown := h.unknown hnot
        rw [htokenize] at hunknown
        exact List.append_cancel_left hunknown
      · intro h
        refine ⟨fun segments' hsegments => absurd ⟨segments', hsegments⟩ hnot, fun _ => ?_⟩
        rw [htokenize, h]
    rw [hiff, or_iff_right hnot]
    simp only [scanned, hcovers, decide_false, Bool.false_or]
    constructor
    · intro h
      cases segments with
      | nil =>
        cases hscan
        exact .inl hstuck
      | cons id segments =>
        simp only [List.isEmpty_cons, Bool.not_false, if_true] at h
        exact .inr ⟨last, h ▸ hscan, hstuck⟩
    · rintro (hfirst | ⟨last', hscan', hstuck'⟩)
      · obtain ⟨rfl, -⟩ := hscan.unique hended .here (.inr hfirst)
        rfl
      · obtain ⟨rfl, -⟩ := hscan.unique hended hscan' (.inr hstuck')
        rfl

/-- The sample vocabulary has `a` but nothing that goes on with `x`: the id of `a` stays. -/
theorem stuck_behind_first_piece : ¬sampleWrapper.GreedyOrUnknown (ascii "ax") [] := by
  intro h
  have hstuck : Stuck (sampleWrapper.pieceId (ascii "ax")) 2 1 := by
    refine ⟨by decide, fun stop hlt hle => ?_⟩
    obtain rfl : stop = 2 := by omega
    decide +kernel
  have hscan : Scan (sampleWrapper.pieceId (ascii "ax")) 2 0 [4] 1 := by
    refine .next ⟨by decide, by decide, by decide +kernel, fun stop hlt hle => ?_⟩ .here
    obtain rfl : stop = 2 := by omega
    decide +kernel
  have hunknown := h.unknown fun ⟨segments, hsegments⟩ =>
    absurd (hscan.unique (.inr hstuck) hsegments (.inl rfl)).2 (by decide)
  exact absurd hunknown (by decide +kernel)

end TokenizerWrapper

end LibEmbedding
