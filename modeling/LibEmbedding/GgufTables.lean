import LibEmbedding.GgufBatching

/-!
# The tables of an accepted file

What a successful load leaves, and what it never looked at: the shapes of the tensors. The
tables hold everything a text can ask for exactly when the shapes agree with the header and
the position table is as long as the sequences.
-/

namespace LibEmbedding

open Foundation

-- ---------------------------------------------------------------------------
-- What a load establishes
-- ---------------------------------------------------------------------------

/-- A session that holds weights `w`, as its load left it. -/
structure SparseSession.Loaded (s : SparseSession) (w : Weights) : Prop where
  weights : s.weights = some w
  ids : s.tok.IdsBelow w.hparams.nVocab.toNat
  vocabSize : s.vocabSize = w.hparams.nVocab
  maxLength : (s.tok.maxLength : Int) = s.maxLength
  maxLengthFits : s.maxLength ≤ intMax
  positive : 0 < w.hparams.nEmbd ∧ 0 < w.hparams.nHead ∧ 0 < w.hparams.nLayer ∧
    0 < w.hparams.nFf ∧ 0 < w.hparams.nVocab ∧ 0 < w.hparams.nPos
  divides : w.hparams.nEmbd.tmod w.hparams.nHead = 0
  epsPositive : w.hparams.eps.nonpositive = false

theorem CFloat.nonnegative_of_positive {x : CFloat} (h : x.nonpositive = false) (hnan : x ≠ .nan) :
    x.nonnegative := by
  cases x with
  | nan => exact absurd rfl hnan
  | infinite negative => simpa [CFloat.nonpositive, CFloat.nonnegative] using h
  | finite value =>
    simp only [CFloat.nonpositive, decide_eq_false_iff_not, not_le] at h
    simpa [CFloat.nonnegative] using h.le

namespace SparseSession

variable {s : SparseSession} {w : Weights}

/-- The dimensions a load has checked are those a graph needs, but for the epsilon. -/
theorem Loaded.sound (h : s.Loaded w) (heps : w.hparams.eps ≠ .nan) : w.hparams.Sound := by
  obtain ⟨hembd, hhead, -, hff, hvocab, -⟩ := h.positive
  refine ⟨by omega, by omega, by omega, ?_, CFloat.nonnegative_of_positive h.epsPositive heps⟩
  have hdivides := h.divides
  lift w.hparams.nEmbd to Nat using hembd.le with n hn
  lift w.hparams.nHead to Nat using hhead.le with m hm
  rw [Int.toNat_natCast, Int.toNat_natCast]
  rw [← Int.ofNat_tmod] at hdivides
  refine Nat.div_mul_cancel (Nat.dvd_of_mod_eq_zero ?_)
  exact_mod_cast hdivides

theorem reloaded_loaded {path : Option Bytes} {tok : TokenizerWrapper} {maxLength : Int}
    (s : SparseSession) (h : Opened path file env o tokens)
    (htok : loadTokens (some o.header) tokens (cappedLength maxLength o.hparams.nPos) s.tok =
      some tok) : (s.reloaded path o.weights tok maxLength).Loaded o.weights where
  weights := rfl
  ids := by
    have hids := loadTokens_idsBelow htok
    have hsize : tokens.length = o.hparams.nVocab.toNat := by
      rw [← h.size, Int.toNat_natCast]
    rwa [hsize] at hids
  vocabSize := rfl
  maxLength := TokenizerWrapper.loadVocab_maxLength htok
    (cappedLength_pos maxLength h.hparams.positive.2.2.2.2.2)
  maxLengthFits := by
    have hfits := (readI32Any_fits h.hparams.nPos).2
    refine le_trans ?_ hfits
    unfold SparseSession.reloaded cappedLength
    dsimp only
    split
    · exact min_le_right ..
    · exact le_rfl
  positive := h.hparams.positive
  divides := h.hparams.divides
  epsPositive := h.hparams.epsPositive

/-- What a successful load leaves. -/
theorem loadFromFile_loaded {s' : SparseSession} {path : Option Bytes} {maxLength : Int}
    (h : s.loadFromFile path file env maxLength = (.ok (), s')) :
    ∃ o tokens, Opened path file env o tokens ∧ s'.Loaded o.weights ∧
      s'.maxLength = cappedLength maxLength o.hparams.nPos ∧
      s'.generation = s.generation + 1 ∧ s'.graph = s.graph := by
  rcases s.loadFromFile_cases path file env maxLength with ⟨err, hload⟩ |
    ⟨o, tokens, tok, hopened, htok, hload⟩
  · rw [h] at hload
    cases hload
  · rw [h] at hload
    cases hload
    exact ⟨o, tokens, hopened, reloaded_loaded s hopened htok, rfl, rfl, rfl⟩

end SparseSession

-- ---------------------------------------------------------------------------
-- What the tables hold
-- ---------------------------------------------------------------------------

section Tables

variable {α : Type} [Field α] [LinearOrder α] (fns : MathFns α)

/-- Every id and every position a text leads to names a row, the shapes are those of the
header, and no step of the graph stops, unless the epsilon is no number. -/
structure TablesFit (s : SparseSession) (w : Weights) : Prop where
  tokens : ∀ texts, ∀ row ∈ (s.tok.encodeBatch texts).inputIds,
    ∀ id ∈ row, 0 ≤ id ∧ id < (w.head.tokEmbd.ne1 : Int)
  positions : ∀ texts, ∀ p ∈ batchPositions texts.length (s.tok.encodeBatch texts).seqLength,
    0 ≤ p ∧ p < (w.head.posEmbd.ne1 : Int)
  shaped : w.Shaped
  runs : w.hparams.eps ≠ .nan → ∀ texts, 0 < (s.tok.encodeBatch texts).seqLength →
    ∃ z, buildLogits fns w ((s.tok.encodeBatch texts).inputIds.flatMap id)
      (batchPositions texts.length (s.tok.encodeBatch texts).seqLength)
      (buildMask ((s.tok.encodeBatch texts).attentionMask.flatMap id)
        (s.tok.encodeBatch texts).seqLength texts.length)
      (s.tok.encodeBatch texts).seqLength texts.length = .ok z

/-- The shapes in a file's directory are those of its header, and the position table has a
row for every position of the longest sequence. -/
structure GgufHeader.Consistent (header : GgufHeader) (hp : SpladeHparams) (maxLength : Int) :
    Prop where
  head : (HeadWeights.named header.stored).Shaped hp.nEmbd.toNat hp.nVocab.toNat
  layers : ∀ il < hp.nLayer.toNat,
    (LayerWeights.named header.stored il).Shaped hp.nEmbd.toNat hp.nFf.toNat
  positions : SparseSession.cappedLength maxLength hp.nPos ≤
    (header.stored (ascii "position_embd.weight")).ne1

theorem OpenWeights.shaped_iff (o : OpenWeights) : o.weights.Shaped ↔
    (HeadWeights.named o.header.stored).Shaped o.hparams.nEmbd.toNat o.hparams.nVocab.toNat ∧
      ∀ il < o.hparams.nLayer.toNat,
        (LayerWeights.named o.header.stored il).Shaped o.hparams.nEmbd.toNat
          o.hparams.nFf.toNat := by
  constructor
  · rintro ⟨hhead, hlayers⟩
    exact ⟨hhead, fun il hil => hlayers _ (List.mem_map_of_mem (List.mem_range.mpr hil))⟩
  · rintro ⟨hhead, hlayers⟩
    refine ⟨hhead, fun L hL => ?_⟩
    obtain ⟨il, hil, rfl⟩ := List.mem_map.mp hL
    exact hlayers il (List.mem_range.mp hil)

/-- The ids of every batch name rows of a table as long as the vocabulary. -/
theorem SparseSession.Loaded.tablesFit {s : SparseSession} {w : Weights} (h : s.Loaded w)
    (hshaped : w.Shaped) (hpositions : s.tok.maxLength ≤ w.head.posEmbd.ne1) :
    TablesFit fns s w := by
  have hids : s.tok.IdsBelow w.head.tokEmbd.ne1 := by
    rw [hshaped.head.tokEmbd.ne1]
    exact h.ids
  refine ⟨fun texts => hids.encodeBatch texts, fun texts p hp => ?_, hshaped,
    fun heps texts hseq => ?_⟩
  · obtain ⟨hpos, hlt⟩ := mem_batchPositions hp
    have hmax : (s.tok.encodeBatch texts).seqLength ≤ s.tok.maxLength := min_le_right ..
    exact ⟨hpos, lt_of_lt_of_le hlt (Int.ofNat_le.mpr (hmax.trans hpositions))⟩
  · obtain ⟨z, hz, -⟩ := buildLogits_holds fns ⟨hshaped, h.sound heps⟩
      (buildMask_masksPadding hseq) (feeds_docsOf hseq hids hpositions)
    exact ⟨z, hz⟩

/-- A text of the greatest length asks for the last position. -/
theorem TablesFit.positions_le {s : SparseSession} {w : Weights} (h : TablesFit fns s w) :
    s.tok.maxLength ≤ w.head.posEmbd.ne1 := by
  have hseq := s.tok.seqLength_marks
  have hlast : ((s.tok.maxLength - 1 : Nat) : Int) ∈ batchPositions 1 s.tok.maxLength := by
    have hpos := s.tok.maxLengthPos
    refine List.mem_flatMap.mpr ⟨0, by simp, List.mem_map.mpr ⟨s.tok.maxLength - 1, ?_, rfl⟩⟩
    exact List.mem_range.mpr (Nat.sub_lt hpos Nat.one_pos)
  obtain ⟨-, hlt⟩ := h.positions [TokenizerWrapper.marks s.tok.maxLength] _ (by rwa [hseq])
  exact Nat.le_of_pred_lt (Int.ofNat_lt.mp hlt)

/-- What a load of a consistent file leaves. -/
theorem GgufHeader.Consistent.loaded {s s' : SparseSession} {path : Option Bytes}
    {header : GgufHeader} {env : LoadEnv} {maxLength : Int} {hp : SpladeHparams}
    (h : header.Consistent hp maxLength) (hread : readHparams (some header) = .ok hp)
    (hload : s.loadFromFile path (some header) env maxLength = (.ok (), s')) :
    ∃ w, s'.Loaded w ∧ w.hparams = hp ∧ s'.maxLength = SparseSession.cappedLength maxLength hp.nPos ∧
      w.Shaped ∧ s'.tok.maxLength ≤ w.head.posEmbd.ne1 ∧ s'.graph = s.graph := by
  obtain ⟨o, tokens, hopened, hloaded, hlength, -, hgraph⟩ :=
    SparseSession.loadFromFile_loaded hload
  obtain rfl := Option.some.inj hopened.file
  obtain rfl := Except.ok.inj (hread.symm.trans (readHparams_ok.mpr hopened.hparams))
  refine ⟨o.weights, hloaded, rfl, hlength, o.shaped_iff.mpr ⟨h.head, h.layers⟩, ?_, hgraph⟩
  rw [o.weights_posEmbd, ← Int.ofNat_le, hloaded.maxLength, hlength]
  exact h.positions

/-- The tables of an accepted file hold whatever texts ask for exactly when the file is
consistent. -/
theorem tables_fit_iff {s s' : SparseSession} {path : Option Bytes} {header : GgufHeader}
    {env : LoadEnv} {maxLength : Int} {w : Weights} {hp : SpladeHparams}
    (hload : s.loadFromFile path (some header) env maxLength = (.ok (), s'))
    (hw : s'.weights = some w) (hread : readHparams (some header) = .ok hp) :
    TablesFit fns s' w ↔ header.Consistent hp maxLength := by
  obtain ⟨o, tokens, hopened, hloaded, hlength, -, -⟩ := SparseSession.loadFromFile_loaded hload
  obtain rfl := Option.some.inj hopened.file
  obtain rfl := Option.some.inj (hloaded.weights.symm.trans hw)
  obtain rfl := Except.ok.inj (hread.symm.trans (readHparams_ok.mpr hopened.hparams))
  constructor
  · intro hfit
    obtain ⟨hhead, hlayers⟩ := o.shaped_iff.mp hfit.shaped
    refine ⟨hhead, hlayers, ?_⟩
    rw [← hlength, ← hloaded.maxLength, Int.ofNat_le, ← o.weights_posEmbd]
    exact hfit.positions_le fns
  · intro hconsistent
    obtain ⟨w, hloaded', -, -, hshaped, hpositions, -⟩ := hconsistent.loaded hread hload
    obtain rfl := Option.some.inj (hloaded'.weights.symm.trans hw)
    exact hloaded'.tablesFit fns hshaped hpositions

end Tables

-- ---------------------------------------------------------------------------
-- The sample
-- ---------------------------------------------------------------------------

/-- The functions of the samples. -/
def plainFns : MathFns ℚ := ⟨fun x => x, fun x => x, fun x => x, fun x => x⟩

theorem sample_stored (h : name ∈ requiredNames 1) :
    (sampleHeader [] 4).stored name = ⟨.f32, 1,
      if name = ascii "position_embd.weight" then 4 else 1, 1, 1, true, fun _ _ _ _ => 1⟩ := by
  simp [GgufHeader.stored, sampleHeader, h]

theorem sample_shape (h : name ∈ requiredNames 1) (hne : name ≠ ascii "position_embd.weight") :
    ((sampleHeader [] 4).stored name).HasShape 1 1 := by
  rw [sample_stored h, if_neg hne]
  exact ⟨rfl, rfl, rfl, rfl⟩

theorem sample_consistent : (sampleHeader [] 4).Consistent sampleHparams 0 where
  head := by
    constructor <;> decide +kernel
  layers il hil := by
    obtain rfl : il = 0 := Nat.lt_one_iff.mp hil
    constructor <;> simp only [LayerWeights.named, sampleHparams, Int.toNat_one] <;>
      exact sample_shape (by simp [requiredNames, layerNames, layerSuffixes]) (by decide +kernel)
  positions := by decide +kernel

theorem tables_fit_iff_sample : ∃ s' w,
    SparseSession.new.loadFromFile (some (ascii "a.gguf")) (some (sampleHeader [] 4)) .ample 0 =
      (.ok (), s') ∧ s'.weights = some w ∧ TablesFit plainFns s' w := by
  obtain ⟨s', hload⟩ : ∃ s', SparseSession.new.loadFromFile (some (ascii "a.gguf"))
      (some (sampleHeader [] 4)) .ample 0 = (.ok (), s') := ⟨_, Prod.ext sample_loads rfl⟩
  obtain ⟨o, -, -, hloaded, -⟩ := SparseSession.loadFromFile_loaded hload
  exact ⟨s', o.weights, hload, hloaded.weights,
    (tables_fit_iff plainFns hload hloaded.weights sample_hparams).mpr sample_consistent⟩

/-- A file whose header promises four positions and whose table has one. -/
theorem short_position_table : ∃ s' w,
    SparseSession.new.loadFromFile (some (ascii "a.gguf")) (some (sampleHeader [] 1)) .ample 0 =
      (.ok (), s') ∧ s'.weights = some w ∧ ¬TablesFit plainFns s' w := by
  have hok : (SparseSession.new.loadFromFile (some (ascii "a.gguf")) (some (sampleHeader [] 1))
      .ample 0).1 = .ok () := by decide +kernel
  have hread : readHparams (some (sampleHeader [] 1)) = .ok sampleHparams := by decide +kernel
  have hrows : ((sampleHeader [] 1).stored (ascii "position_embd.weight")).ne1 = 1 := by
    decide +kernel
  obtain ⟨s', hload⟩ : ∃ s', SparseSession.new.loadFromFile (some (ascii "a.gguf"))
      (some (sampleHeader [] 1)) .ample 0 = (.ok (), s') := ⟨_, Prod.ext hok rfl⟩
  obtain ⟨o, _, hopened, hloaded, hlength, -⟩ := SparseSession.loadFromFile_loaded hload
  refine ⟨s', o.weights, hload, hloaded.weights, fun hfit => ?_⟩
  have hheader : o.header = sampleHeader [] 1 := (Option.some.inj hopened.file).symm
  have hhparams : o.hparams = sampleHparams := by
    have hopen := readHparams_ok.mpr hopened.hparams
    rw [hheader] at hopen
    exact Except.ok.inj (hopen.symm.trans hread)
  have hmax : (s'.tok.maxLength : Int) = 4 := by
    rw [hloaded.maxLength, hlength, hhparams]
    rfl
  have hle := hfit.positions_le plainFns
  rw [o.weights_posEmbd, hheader, hrows] at hle
  omega

end LibEmbedding
