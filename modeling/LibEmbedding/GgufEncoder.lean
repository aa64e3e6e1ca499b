import LibEmbedding.GgufGraph

/-!
# What the encoder computes

A post-norm transformer over the tokens of one document, and the graph as its batched
form: the columns of a document in the graph's tensors are the vectors of the transformer,
whatever the other documents are and however far they are padded.
-/

namespace LibEmbedding

open Foundation

-- ---------------------------------------------------------------------------
-- Shapes
-- ---------------------------------------------------------------------------

/-- A matrix of `n1` rows of `n0` numbers. -/
structure GgufTensor.HasShape (t : GgufTensor) (n0 n1 : Nat) : Prop where
  ne0 : t.ne0 = n0
  ne1 : t.ne1 = n1
  ne2 : t.ne2 = 1
  ne3 : t.ne3 = 1

instance (t : GgufTensor) (n0 n1 : Nat) : Decidable (t.HasShape n0 n1) :=
  decidable_of_iff (t.ne0 = n0 ∧ t.ne1 = n1 ∧ t.ne2 = 1 ∧ t.ne3 = 1)
    ⟨fun ⟨h0, h1, h2, h3⟩ => ⟨h0, h1, h2, h3⟩, fun h => ⟨h.ne0, h.ne1, h.ne2, h.ne3⟩⟩

/-- The tensors of a layer have the sizes the header gives. -/
structure LayerWeights.Shaped (L : LayerWeights GgufTensor) (nEmbd nFf : Nat) : Prop where
  ln1W : L.ln1W.HasShape nEmbd 1
  ln1B : L.ln1B.HasShape nEmbd 1
  qW : L.qW.HasShape nEmbd nEmbd
  qB : L.qB.HasShape nEmbd 1
  kW : L.kW.HasShape nEmbd nEmbd
  kB : L.kB.HasShape nEmbd 1
  vW : L.vW.HasShape nEmbd nEmbd
  vB : L.vB.HasShape nEmbd 1
  oW : L.oW.HasShape nEmbd nEmbd
  oB : L.oB.HasShape nEmbd 1
  ln2W : L.ln2W.HasShape nEmbd 1
  ln2B : L.ln2B.HasShape nEmbd 1
  fc1W : L.fc1W.HasShape nEmbd nFf
  fc1B : L.fc1B.HasShape nFf 1
  fc2W : L.fc2W.HasShape nFf nEmbd
  fc2B : L.fc2B.HasShape nEmbd 1

/-- The embedding tables and the head have the sizes the header gives. -/
structure HeadWeights.Shaped (head : HeadWeights GgufTensor) (nEmbd nVocab : Nat) : Prop where
  tokEmbd : head.tokEmbd.HasShape nEmbd nVocab
  posEmbd : head.posEmbd.HasShape nEmbd head.posEmbd.ne1
  typeEmbd : head.typeEmbd.HasShape nEmbd head.typeEmbd.ne1
  typeRows : 0 < head.typeEmbd.ne1
  embdLnW : head.embdLnW.HasShape nEmbd 1
  embdLnB : head.embdLnB.HasShape nEmbd 1
  mlmTransformW : head.mlmTransformW.HasShape nEmbd nEmbd
  mlmTransformB : head.mlmTransformB.HasShape nEmbd 1
  mlmLnW : head.mlmLnW.HasShape nEmbd 1
  mlmLnB : head.mlmLnB.HasShape nEmbd 1
  mlmBias : head.mlmBias.HasShape nVocab 1

/-- Weights whose tensors all have the sizes the header gives. -/
structure Weights.Shaped (w : Weights) : Prop where
  head : w.head.Shaped w.hparams.nEmbd.toNat w.hparams.nVocab.toNat
  layers : ∀ L ∈ w.layers, L.Shaped w.hparams.nEmbd.toNat w.hparams.nFf.toNat

/-- Dimensions a graph can be built for. -/
structure SpladeHparams.Sound (hp : SpladeHparams) : Prop where
  nEmbd : 0 < hp.nEmbd.toNat
  nFf : 0 < hp.nFf.toNat
  nVocab : 0 < hp.nVocab.toNat
  heads : hp.nEmbd.toNat / hp.nHead.toNat * hp.nHead.toNat = hp.nEmbd.toNat
  eps : hp.eps.nonnegative

/-- Weights a graph can be built over. -/
structure Weights.Runnable (w : Weights) : Prop extends w.Shaped where
  hparams : w.hparams.Sound

variable {α : Type} [Field α] [LinearOrder α] (fns : MathFns α)

/-- Row `o` of a matrix. -/
def GgufTensor.rows (t : GgufTensor) (o i : Nat) : α := t.value i o 0 0

omit [LinearOrder α] in
theorem GgufTensor.HasShape.columns {t : GgufTensor} (h : t.HasShape n m) :
    (t.tensor : Tensor4 α).Columns n m t.rows where
  ne0 := h.ne0
  ne1 := h.ne1
  ne2 := h.ne2
  ne3 := h.ne3
  layout := rfl
  value i _ j _ k hk l hl := by
    obtain rfl : k = 0 := Nat.lt_one_iff.mp hk
    obtain rfl : l = 0 := Nat.lt_one_iff.mp hl
    rfl

-- ---------------------------------------------------------------------------
-- One document
-- ---------------------------------------------------------------------------

/-- The vectors of the tokens of a document. -/
abbrev Hidden (α : Type) := Nat → Nat → α

namespace Transformer

def linear (n : Nat) (weight bias : GgufTensor) (h : Hidden α) : Hidden α :=
  fun j o => ∑ e ∈ Finset.range n, weight.rows o e * h j e + bias.rows 0 o

def layernorm (n : Nat) (weight bias : GgufTensor) (eps : CFloat) (h : Hidden α) : Hidden α :=
  fun j i => Tensor4.normalized (invStd fns eps) n (h j) i * weight.rows 0 i + bias.rows 0 i

def sum (h h' : Hidden α) : Hidden α := fun j i => h j i + h' j i

/-- The score of token `e` for token `j`, in the head entry `i` belongs to. -/
def score (headDim : Nat) (q k : Hidden α) (j i e : Nat) : α :=
  (∑ d ∈ Finset.range headDim,
    k e (d + headDim * (i / headDim)) * q j (d + headDim * (i / headDim))) *
    (1 / fns.sqrt headDim)

/-- Attention over the `len` tokens of the document. -/
def attention (headDim len : Nat) (q k v : Hidden α) : Hidden α :=
  fun j i => ∑ e ∈ Finset.range len, v e i * Tensor4.softmaxWeight fns.exp
    ((List.range len).map (score fns headDim q k j i)) (some (score fns headDim q k j i e))

def layer (hp : SpladeHparams) (len : Nat) (h : Hidden α) (L : LayerWeights GgufTensor) :
    Hidden α :=
  let n := hp.nEmbd.toNat
  let att := attention fns (n / hp.nHead.toNat) len (linear n L.qW L.qB h) (linear n L.kW L.kB h)
    (linear n L.vW L.vB h)
  let h := layernorm fns n L.ln1W L.ln1B hp.eps (sum (linear n L.oW L.oB att) h)
  let f := linear hp.nFf.toNat L.fc2W L.fc2B fun j i => fns.gelu (linear n L.fc1W L.fc1B h j i)
  layernorm fns n L.ln2W L.ln2B hp.eps (sum f h)

def embeddings (w : Weights) (ids : List Int) : Hidden α :=
  layernorm fns w.hparams.nEmbd.toNat w.head.embdLnW w.head.embdLnB w.hparams.eps fun j i =>
    w.head.tokEmbd.rows (ids.getD j 0).toNat i + w.head.posEmbd.rows j i +
      w.head.typeEmbd.rows 0 i

def encode (w : Weights) (ids : List Int) : Hidden α :=
  w.layers.foldl (layer fns w.hparams ids.length) (embeddings fns w ids)

/-- The logits of the tokens of a document. -/
def logits (w : Weights) (ids : List Int) : Hidden α :=
  let n := w.hparams.nEmbd.toNat
  let x := linear n w.head.mlmTransformW w.head.mlmTransformB (encode fns w ids)
  let x := layernorm fns n w.head.mlmLnW w.head.mlmLnB w.hparams.eps fun j i => fns.gelu (x j i)
  linear n w.head.tokEmbd w.head.mlmBias x

end Transformer

-- ---------------------------------------------------------------------------
-- Documents in a batch
-- ---------------------------------------------------------------------------

/-- The lengths of the documents of a batch, in a graph of `seqLen` columns for each. -/
structure Ragged (batch : Nat) where
  seqLen : Nat
  len : Nat → Nat
  fits : ∀ b < batch, len b ≤ seqLen
  seqPos : 0 < seqLen
  batchPos : 0 < batch

/-- The columns of document `b` are the vectors `docs b`. What stands in the columns of the
padding is not said. -/
def HoldsDocs (x : Tensor4 α) (n : Nat) (r : Ragged batch) (docs : Nat → Hidden α) : Prop :=
  ∃ h, x.Columns n (r.seqLen * batch) h ∧
    ∀ b < batch, ∀ j < r.len b, ∀ i < n, h (j + r.seqLen * b) i = docs b j i

/-- A mask that leaves out the padding of every document that has tokens. -/
def MasksPadding (mask : Tensor4 (Option α)) (r : Ragged batch) : Prop :=
  ∃ m, mask.Entries r.seqLen r.seqLen 1 batch m ∧
    ∀ b < batch, 0 < r.len b → ∀ j < r.seqLen, ∀ e < r.seqLen,
      m e j 0 b = if e < r.len b then some 0 else none

open Transformer

section Operations

variable {r : Ragged batch} {x y : Tensor4 α} {docs docs' : Nat → Hidden α}
variable {weight bias : GgufTensor}

theorem Ragged.columnsPos (r : Ragged batch) : 0 < r.seqLen * batch :=
  Nat.mul_pos r.seqPos r.batchPos

omit [LinearOrder α] in
theorem project_holds (hweight : weight.HasShape n m) (hbias : bias.HasShape m 1) (hm : 0 < m)
    (hx : HoldsDocs x n r docs) :
    ∃ z, project weight bias x = .ok z ∧
      HoldsDocs z m r fun b => linear n weight bias (docs b) := by
  obtain ⟨h, hcolumns, hdocs⟩ := hx
  obtain ⟨y, hy, hycolumns⟩ := Tensor4.mulMat_columns hweight.columns hcolumns
  obtain ⟨z, hz, hzcolumns⟩ := Tensor4.zipRepeat_vector (· + ·) hycolumns hbias.columns hm
  refine ⟨z, ?_, _, hzcolumns, fun b hb j hj o _ => ?_⟩
  · rw [project, hy, ok_bind]
    exact hz
  · have hsum : ∑ e ∈ Finset.range n, (weight.rows o e : α) * h (j + r.seqLen * b) e =
        ∑ e ∈ Finset.range n, weight.rows o e * docs b j e :=
      Finset.sum_congr rfl fun e he => by rw [hdocs b hb j hj e (Finset.mem_range.mp he)]
    exact congrArg (· + bias.rows 0 o) hsum

omit [LinearOrder α] in
theorem add_holds (hn : 0 < n) (hx : HoldsDocs x n r docs) (hy : HoldsDocs y n r docs') :
    ∃ z, Tensor4.add x y = .ok z ∧ HoldsDocs z n r fun b => sum (docs b) (docs' b) := by
  obtain ⟨h, hcolumns, hdocs⟩ := hx
  obtain ⟨h', hcolumns', hdocs'⟩ := hy
  obtain ⟨z, hz, hzcolumns⟩ :=
    Tensor4.zipRepeat_same (· + ·) hcolumns hcolumns' hn r.columnsPos
  refine ⟨z, hz, _, hzcolumns, fun b hb j hj i hi => ?_⟩
  rw [hdocs b hb j hj i hi, hdocs' b hb j hj i hi]
  rfl

omit [Field α] [LinearOrder α] in
theorem map_holds (fn : α → α) (hx : HoldsDocs x n r docs) :
    HoldsDocs (x.map fn) n r fun b j i => fn (docs b j i) := by
  obtain ⟨h, hcolumns, hdocs⟩ := hx
  exact ⟨_, Tensor4.map_columns fn hcolumns,
    fun b hb j hj i hi => congrArg fn (hdocs b hb j hj i hi)⟩

omit [LinearOrder α] in
theorem layernorm_holds (heps : eps.nonnegative) (hweight : weight.HasShape n 1)
    (hbias : bias.HasShape n 1) (hn : 0 < n) (hx : HoldsDocs x n r docs) :
    ∃ z, bertLayernorm fns x weight bias eps = .ok z ∧
      HoldsDocs z n r fun b => layernorm fns n weight bias eps (docs b) := by
  obtain ⟨h, hcolumns, hdocs⟩ := hx
  obtain ⟨y, hy, hycolumns⟩ := Tensor4.zipRepeat_vector (· * ·)
    (Tensor4.norm_columns (invStd fns eps) hcolumns) hweight.columns hn
  obtain ⟨z, hz, hzcolumns⟩ := Tensor4.zipRepeat_vector (· + ·) hycolumns hbias.columns hn
  refine ⟨z, ?_, _, hzcolumns, fun b hb j hj i hi => ?_⟩
  · unfold bertLayernorm
    rw [ensure_pos heps, ok_bind]
    simp only [Tensor4.mul, hy, ok_bind]
    exact hz
  · have hnormalized := Tensor4.normalized_congr (invStd fns eps) (hdocs b hb j hj) hi
    exact congrArg (fun y => y * weight.rows 0 i + bias.rows 0 i) hnormalized

end Operations

section Attention

variable {r : Ragged batch} {n nHead : Nat}

omit [Field α] [LinearOrder α] in
/-- The heads of a tensor, one matrix for each head and document. -/
theorem bertSplitHeads_entries {t : Tensor4 α} (hheads : n / nHead * nHead = n)
    (ht : t.Columns n (r.seqLen * batch) h) :
    ∃ z, bertSplitHeads t n nHead r.seqLen batch = .ok z ∧
      z.Entries (n / nHead) r.seqLen nHead batch fun d j head b =>
        h (j + r.seqLen * b) (d + n / nHead * head) := by
  have ht' : t.Columns (n / nHead * nHead) (r.seqLen * batch) h := by rwa [hheads]
  obtain ⟨y, hy, hentries⟩ := Tensor4.reshape4d_columns ht'
  refine ⟨_, ?_, Tensor4.permute0213_cont hentries⟩
  simp only [bertSplitHeads, hy, ok_bind]
  rfl

/-- The head an entry belongs to lies inside the row. -/
theorem headEntry_lt (hheads : n / nHead * nHead = n) (hi : i < n) (hd : d < n / nHead) :
    d + n / nHead * (i / (n / nHead)) < n := by
  have hhead : i / (n / nHead) < nHead := Nat.div_lt_of_lt_mul (by rwa [hheads])
  calc d + n / nHead * (i / (n / nHead)) < n / nHead + n / nHead * (i / (n / nHead)) :=
        Nat.add_lt_add_right hd _
    _ = n / nHead * (i / (n / nHead) + 1) := by ring
    _ ≤ n / nHead * nHead := Nat.mul_le_mul_left _ hhead
    _ = n := hheads

theorem bertAttention_holds {q k v : Tensor4 α} {mask : Tensor4 (Option α)}
    {dq dk dv : Nat → Hidden α} (hn : 0 < n) (hheads : n / nHead * nHead = n)
    (hmask : MasksPadding mask r) (hq : HoldsDocs q n r dq) (hk : HoldsDocs k n r dk)
    (hv : HoldsDocs v n r dv) :
    ∃ q4 k4 v4 z, bertSplitHeads q n nHead r.seqLen batch = .ok q4 ∧
      bertSplitHeads k n nHead r.seqLen batch = .ok k4 ∧
      bertSplitHeads v n nHead r.seqLen batch = .ok v4 ∧
      bertAttention fns q4 k4 v4 mask n nHead r.seqLen batch = .ok z ∧
      HoldsDocs z n r fun b => attention fns (n / nHead) (r.len b) (dq b) (dk b) (dv b) := by
  obtain ⟨hq, hqcolumns, hqdocs⟩ := hq
  obtain ⟨hk, hkcolumns, hkdocs⟩ := hk
  obtain ⟨hv, hvcolumns, hvdocs⟩ := hv
  obtain ⟨m, hmentries, hmvalue⟩ := hmask
  have hheadsPos : 0 < nHead := by
    rcases Nat.eq_zero_or_pos nHead with rfl | hpos
    · rw [Nat.mul_zero] at hheads
      exact absurd hheads hn.ne
    · exact hpos
  obtain ⟨q4, hq4, hqentries⟩ := bertSplitHeads_entries hheads hqcolumns
  obtain ⟨k4, hk4, hkentries⟩ := bertSplitHeads_entries hheads hkcolumns
  obtain ⟨v4, hv4, hventries⟩ := bertSplitHeads_entries hheads hvcolumns
  obtain ⟨kq, hkq, hkqentries⟩ :=
    Tensor4.mulMat_entries hkentries hqentries hheadsPos r.batchPos
  obtain ⟨p, hp, hpentries⟩ := Tensor4.softMaxExt_entries fns.exp
    (1 / fns.sqrt ((n / nHead : Nat) : α)) hkqentries hmentries
  obtain ⟨kqv, hkqv, hkqventries⟩ := Tensor4.mulMat_entries (Tensor4.transpose_cont hventries)
    hpentries hheadsPos r.batchPos
  obtain ⟨z, hz, hzcolumns⟩ := Tensor4.cont2d_permute0213 hkqventries
  rw [hheads] at hz hzcolumns
  refine ⟨q4, k4, v4, z, hq4, hk4, hv4, ?_, _, hzcolumns, fun b hb j hj i hi => ?_⟩
  · simp only [bertAttention, hkq, hp, hkqv, ok_bind, hz]
  · have hjS : j < r.seqLen := lt_of_lt_of_le hj (r.fits b hb)
    have hcolumn : (j + r.seqLen * b) % r.seqLen = j := by
      rw [Nat.add_mul_mod_self_left, Nat.mod_eq_of_lt hjS]
    have hdoc : (j + r.seqLen * b) / r.seqLen = b := by
      rw [Nat.add_mul_div_left _ _ r.seqPos, Nat.div_eq_of_lt hjS, Nat.zero_add]
    have hscore : ∀ e < r.len b, (∑ d ∈ Finset.range (n / nHead),
        hk (e + r.seqLen * b) (d + n / nHead * (i / (n / nHead))) *
          hq (j + r.seqLen * b) (d + n / nHead * (i / (n / nHead)))) *
          (1 / fns.sqrt ((n / nHead : Nat) : α)) =
        score fns (n / nHead) (dq b) (dk b) j i e := by
      intro e he
      refine congrArg (· * (1 / fns.sqrt ((n / nHead : Nat) : α))) (Finset.sum_congr rfl fun d hd => ?_)
      have hd := headEntry_lt hheads hi (Finset.mem_range.mp hd)
      rw [hkdocs b hb e he _ hd, hqdocs b hb j hj _ hd]
    have hlen : 0 < r.len b := Nat.zero_lt_of_lt hj
    have hmasked := Tensor4.sum_softmaxWeight fns.exp
      (fun e => (m e j 0 b).map fun y => (∑ d ∈ Finset.range (n / nHead),
        hk (e + r.seqLen * b) (d + n / nHead * (i / (n / nHead))) *
          hq (j + r.seqLen * b) (d + n / nHead * (i / (n / nHead)))) *
          (1 / fns.sqrt ((n / nHead : Nat) : α)) + y)
      (fun e => hv (e + r.seqLen * b) (i % (n / nHead) + n / nHead * (i / (n / nHead))))
      (score fns (n / nHead) (dq b) (dk b) j i) (r.fits b hb)
      (fun e he => by
        rw [hmvalue b hb hlen j hjS e (lt_of_lt_of_le he (r.fits b hb)), if_pos he, Option.map_some,
          hscore e he, add_zero])
      (fun e he hout => by
        rw [hmvalue b hb hlen j hjS e he, if_neg (not_lt.mpr hout), Option.map_none])
    dsimp only
    rw [hcolumn, hdoc]
    refine hmasked.trans (Finset.sum_congr rfl fun e he => ?_)
    rw [Nat.mod_add_div, hvdocs b hb e (Finset.mem_range.mp he) i hi]

end Attention

-- ---------------------------------------------------------------------------
-- The whole graph
-- ---------------------------------------------------------------------------

section Encoder

variable {r : Ragged batch} {mask : Tensor4 (Option α)} {hp : SpladeHparams}

/-- What one block does to the documents of a batch. -/
theorem encoderLayer_holds (hsound : hp.Sound) {L : LayerWeights GgufTensor}
    (hL : L.Shaped hp.nEmbd.toNat hp.nFf.toNat) (hmask : MasksPadding mask r)
    (hx : HoldsDocs x hp.nEmbd.toNat r docs) :
    ∃ z, encoderLayer fns hp mask r.seqLen batch x L = .ok z ∧
      HoldsDocs z hp.nEmbd.toNat r fun b => layer fns hp (r.len b) (docs b) L := by
  have hn := hsound.nEmbd
  obtain ⟨q, hq, hqdocs⟩ := project_holds hL.qW hL.qB hn hx
  obtain ⟨k, hk, hkdocs⟩ := project_holds hL.kW hL.kB hn hx
  obtain ⟨v, hv, hvdocs⟩ := project_holds hL.vW hL.vB hn hx
  obtain ⟨q4, k4, v4, att, hq4, hk4, hv4, hatt, hattdocs⟩ :=
    bertAttention_holds fns hn hsound.heads hmask hqdocs hkdocs hvdocs
  obtain ⟨o, ho, hodocs⟩ := project_holds hL.oW hL.oB hn hattdocs
  obtain ⟨res, hres, hresdocs⟩ := add_holds hn hodocs hx
  obtain ⟨h, hh, hhdocs⟩ := layernorm_holds fns hsound.eps hL.ln1W hL.ln1B hn hresdocs
  obtain ⟨f, hf, hfdocs⟩ := project_holds hL.fc1W hL.fc1B hsound.nFf hhdocs
  obtain ⟨g, hg, hgdocs⟩ := project_holds hL.fc2W hL.fc2B hn (map_holds fns.gelu hfdocs)
  obtain ⟨res', hres', hresdocs'⟩ := add_holds hn hgdocs hhdocs
  obtain ⟨z, hz, hzdocs⟩ := layernorm_holds fns hsound.eps hL.ln2W hL.ln2B hn hresdocs'
  refine ⟨z, ?_, hzdocs⟩
  simp only [encoderLayer, hq, hk, hv, hq4, hk4, hv4, hatt, ho, hres, hh, hf, hg, hres', hz,
    ok_bind]

theorem layers_hold (hsound : hp.Sound) {layers : List (LayerWeights GgufTensor)}
    (hlayers : ∀ L ∈ layers, L.Shaped hp.nEmbd.toNat hp.nFf.toNat) (hmask : MasksPadding mask r)
    (hx : HoldsDocs x hp.nEmbd.toNat r docs) :
    ∃ z, layers.foldlM (encoderLayer fns hp mask r.seqLen batch) x = .ok z ∧
      HoldsDocs z hp.nEmbd.toNat r fun b => layers.foldl (layer fns hp (r.len b)) (docs b) := by
  induction layers generalizing x docs with
  | nil => exact ⟨x, rfl, hx⟩
  | cons L layers ih =>
    obtain ⟨y, hy, hydocs⟩ :=
      encoderLayer_holds fns hsound (hlayers L List.mem_cons_self) hmask hx
    obtain ⟨z, hz, hzdocs⟩ := ih (fun L' hL' => hlayers L' (List.mem_cons_of_mem L hL')) hydocs
    exact ⟨z, by rw [List.foldlM_cons, hy, ok_bind, hz], hzdocs⟩

/-- The ids and positions of a batch, one for each column, all of them rows of the tables. -/
structure Feeds (w : Weights) (r : Ragged batch) (ids : Nat → List Int)
    (tokens positions : List Int) : Prop where
  lengthTokens : tokens.length = r.seqLen * batch
  lengthPositions : positions.length = r.seqLen * batch
  length : ∀ b < batch, (ids b).length = r.len b
  token : ∀ b < batch, ∀ j < r.len b,
    tokens.getD (j + r.seqLen * b) 0 = (ids b).getD j 0
  position : ∀ b < batch, ∀ j < r.seqLen, positions.getD (j + r.seqLen * b) 0 = j
  tokensBelow : ∀ id ∈ tokens, 0 ≤ id ∧ id < (w.head.tokEmbd.ne1 : Int)
  positionsBelow : ∀ id ∈ positions, 0 ≤ id ∧ id < (w.head.posEmbd.ne1 : Int)

variable {w : Weights} {ids : Nat → List Int} {tokens positions : List Int}

theorem buildBertEncoder_holds (hw : w.Runnable) (hmask : MasksPadding mask r)
    (hfeeds : Feeds w r ids tokens positions) :
    ∃ z, buildBertEncoder fns w tokens positions mask r.seqLen batch = .ok z ∧
      HoldsDocs z w.hparams.nEmbd.toNat r fun b => encode fns w (ids b) := by
  have hn := hw.hparams.nEmbd
  have htok : w.head.tokEmbd.HasShape w.hparams.nEmbd.toNat w.head.tokEmbd.ne1 := by
    rw [hw.head.tokEmbd.ne1]
    exact hw.head.tokEmbd
  obtain ⟨t, ht, htcolumns⟩ := Tensor4.getRows_columns (α := α) htok.columns hfeeds.tokensBelow
  obtain ⟨p, hp, hpcolumns⟩ :=
    Tensor4.getRows_columns (α := α) hw.head.posEmbd.columns hfeeds.positionsBelow
  rw [hfeeds.lengthTokens] at htcolumns
  rw [hfeeds.lengthPositions] at hpcolumns
  obtain ⟨s, hs, hscolumns⟩ :=
    Tensor4.zipRepeat_same (· + ·) htcolumns hpcolumns hn r.columnsPos
  obtain ⟨y, hy, hycolumns⟩ :=
    Tensor4.view1d_columns (α := α) hw.head.typeEmbd.columns hw.head.typeRows
  obtain ⟨e, he, hecolumns⟩ := Tensor4.zipRepeat_vector (· + ·) hscolumns hycolumns hn
  have hedocs : HoldsDocs e w.hparams.nEmbd.toNat r fun b j i =>
      w.head.tokEmbd.rows ((ids b).getD j 0).toNat i + w.head.posEmbd.rows j i +
        w.head.typeEmbd.rows 0 i := by
    refine ⟨_, hecolumns, fun b hb j hj i _ => ?_⟩
    dsimp only
    rw [hfeeds.token b hb j hj, hfeeds.position b hb j (lt_of_lt_of_le hj (r.fits b hb)),
      Int.toNat_natCast]
  obtain ⟨h, hh, hhdocs⟩ :=
    layernorm_holds fns hw.hparams.eps hw.head.embdLnW hw.head.embdLnB hn hedocs
  obtain ⟨z, hz, hzdocs⟩ := layers_hold fns hw.hparams hw.layers hmask hhdocs
  refine ⟨z, ?_, ?_⟩
  · simp only [buildBertEncoder, ht, hp, Tensor4.add, hs, hy, he, hh, ok_bind]
    exact hz
  · obtain ⟨c, hc, hcdocs⟩ := hzdocs
    refine ⟨c, hc, fun b hb j hj i hi => ?_⟩
    rw [hcdocs b hb j hj i hi]
    simp only [encode, hfeeds.length b hb]
    rfl

/-- The logits of a document in a batch are those of the transformer on its own tokens. -/
theorem buildLogits_holds (hw : w.Runnable) (hmask : MasksPadding mask r)
    (hfeeds : Feeds w r ids tokens positions) :
    ∃ z, buildLogits fns w tokens positions mask r.seqLen batch = .ok z ∧
      HoldsDocs z w.hparams.nVocab.toNat r fun b => logits fns w (ids b) := by
  have hn := hw.hparams.nEmbd
  obtain ⟨h, hh, hhdocs⟩ := buildBertEncoder_holds fns hw hmask hfeeds
  obtain ⟨x, hx, hxdocs⟩ := project_holds hw.head.mlmTransformW hw.head.mlmTransformB hn hhdocs
  obtain ⟨y, hy, hydocs⟩ := layernorm_holds fns hw.hparams.eps hw.head.mlmLnW hw.head.mlmLnB hn
    (map_holds fns.gelu hxdocs)
  obtain ⟨z, hz, hzdocs⟩ := project_holds hw.head.tokEmbd hw.head.mlmBias hw.hparams.nVocab hydocs
  refine ⟨z, ?_, hzdocs⟩
  simp only [buildLogits, buildMlmHead, hh, hx, hy, ok_bind]
  exact hz

end Encoder

end LibEmbedding
