import LibEmbedding.Foundation.Tensor
import LibEmbedding.GgufWeights

/-!
# The BERT encoder as a graph

`gguf_bert_graph.hpp` and the head of `gguf_sparse_session.hpp`, over exact numbers: the
ids and positions of a batch in, the logits of every token out. A weight contributes its
dequantised values.
-/

namespace LibEmbedding

open Foundation

/-- The functions of the runtime that are no field operations. `activation` is
`log(1 + x)`. -/
structure MathFns (α : Type) where
  exp : α → α
  sqrt : α → α
  gelu : α → α
  activation : α → α

variable {α : Type} [Field α] [LinearOrder α]

def GgufTensor.tensor (t : GgufTensor) : Tensor4 α :=
  ⟨t.ne0, t.ne1, t.ne2, t.ne3, .contiguous, fun i j k l => (t.value i j k l : α)⟩

section Graph

variable (fns : MathFns α)

/-- `1.0f / sqrtf(variance + eps)` -/
def invStd (eps : CFloat) (variance : α) : α :=
  match eps with
  | .finite eps => 1 / fns.sqrt (variance + eps)
  | _ => 0

def bertLayernorm (x : Tensor4 α) (weight bias : GgufTensor) (eps : CFloat) :
    Checked (Tensor4 α) := do
  ensure eps.nonnegative .assertFailed
  let normed := Tensor4.norm (invStd fns eps) x
  let scaled ← Tensor4.mul normed weight.tensor
  Tensor4.add scaled bias.tensor

/-- `ggml_add(ctx, ggml_mul_mat(ctx, weight, x), bias)` -/
def project (weight bias : GgufTensor) (x : Tensor4 α) : Checked (Tensor4 α) := do
  let y ← Tensor4.mulMat weight.tensor x
  Tensor4.add y bias.tensor

/-- `[n_embd, seq_len * batch]` as `[head_dim, seq_len, n_head, batch]`. -/
def bertSplitHeads (t : Tensor4 α) (nEmbd nHead seqLen batch : Nat) : Checked (Tensor4 α) := do
  let headDim := nEmbd / nHead
  let t4 ← t.reshape4d headDim nHead seqLen batch
  return t4.permute0213.cont

def bertAttention (q k v : Tensor4 α) (mask : Tensor4 (Option α)) (nEmbd nHead seqLen batch : Nat) :
    Checked (Tensor4 α) := do
  let headDim := nEmbd / nHead
  let kq ← Tensor4.mulMat k q
  let kq ← Tensor4.softMaxExt fns.exp kq mask (1 / fns.sqrt headDim)
  let vT := v.transpose.cont
  let kqv ← Tensor4.mulMat vT kq
  kqv.permute0213.cont2d nEmbd (seqLen * batch)

/-- One block. `ln1` comes after the attention residual, `ln2` after the feed-forward one. -/
def encoderLayer (hp : SpladeHparams) (mask : Tensor4 (Option α)) (seqLen batch : Nat)
    (h : Tensor4 α) (L : LayerWeights GgufTensor) : Checked (Tensor4 α) := do
  let nEmbd := hp.nEmbd.toNat
  let nHead := hp.nHead.toNat
  let q ← project L.qW L.qB h
  let k ← project L.kW L.kB h
  let v ← project L.vW L.vB h
  let q ← bertSplitHeads q nEmbd nHead seqLen batch
  let k ← bertSplitHeads k nEmbd nHead seqLen batch
  let v ← bertSplitHeads v nEmbd nHead seqLen batch
  let att ← bertAttention fns q k v mask nEmbd nHead seqLen batch
  let att ← project L.oW L.oB att
  let att ← Tensor4.add att h
  let h ← bertLayernorm fns att L.ln1W L.ln1B hp.eps
  let f ← project L.fc1W L.fc1B h
  let f := f.map fns.gelu
  let f ← project L.fc2W L.fc2B f
  let f ← Tensor4.add f h
  bertLayernorm fns f L.ln2W L.ln2B hp.eps

def buildBertEncoder (w : Weights) (tokens positions : List Int) (mask : Tensor4 (Option α))
    (seqLen batch : Nat) : Checked (Tensor4 α) := do
  let h ← Tensor4.getRows w.head.tokEmbd.tensor tokens
  let p ← Tensor4.getRows w.head.posEmbd.tensor positions
  let h ← Tensor4.add h p
  -- every document is single-segment, so the token type is always row 0
  let segment ← Tensor4.view1d w.head.typeEmbd.tensor w.hparams.nEmbd.toNat
  let h ← Tensor4.add h segment
  let h ← bertLayernorm fns h w.head.embdLnW w.head.embdLnB w.hparams.eps
  w.layers.foldlM (encoderLayer fns w.hparams mask seqLen batch) h

def buildMlmHead (w : Weights) (h : Tensor4 α) : Checked (Tensor4 α) := do
  let x ← project w.head.mlmTransformW w.head.mlmTransformB h
  let x := x.map fns.gelu
  let x ← bertLayernorm fns x w.head.mlmLnW w.head.mlmLnB w.hparams.eps
  -- the decoder is the table of token embeddings
  project w.head.tokEmbd w.head.mlmBias x

/-- The logits of a batch, one column for each token. -/
def buildLogits (w : Weights) (tokens positions : List Int) (mask : Tensor4 (Option α))
    (seqLen batch : Nat) : Checked (Tensor4 α) := do
  let h ← buildBertEncoder fns w tokens positions mask seqLen batch
  buildMlmHead fns w h

end Graph

-- ---------------------------------------------------------------------------
-- The mask
-- ---------------------------------------------------------------------------

/-- Entry `j` of every row of the plane of a document: minus infinity for padding. -/
def maskEntry (vb : List Int) (j : Nat) : Option α :=
  if vb.getD j 0 ≠ 0 then some 0 else none

/-- `[seq_len, seq_len, 1, batch]`. A document without any real token attends to itself. -/
def buildMask (valid : List Int) (seqLen batch : Nat) : Tensor4 (Option α) :=
  ⟨seqLen, seqLen, 1, batch, .contiguous, fun j i _ b =>
    let vb := (valid.drop (b * seqLen)).take seqLen
    if vb.all (· = 0) ∧ i = j then some 0 else maskEntry vb j⟩

end LibEmbedding
