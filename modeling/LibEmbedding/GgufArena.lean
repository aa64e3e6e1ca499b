import LibEmbedding.GgufGraph
import LibEmbedding.GgufTables

/-!
# The arena of the graph

The context of a graph has room for a fixed number of tensors, and the graph for as many
nodes. Each `ggml` call takes one of both, and the process stops where none is left. The
builders of the graph are written once over the calls they make: over `Checked` they
are those that compute the logits, over an arena they count.
-/

namespace LibEmbedding

open Foundation

/-- The calls of the builders. `T` are tensors, `I` ids and `M` masks. -/
structure GgmlOps (m : Type → Type) (T I M : Type) where
  weight : GgufTensor → T
  getRows : T → I → m T
  add : T → T → m T
  mul : T → T → m T
  mulMat : T → T → m T
  norm : T → CFloat → m T
  gelu : T → m T
  view1d : T → Nat → m T
  reshape4d : T → Nat → Nat → Nat → Nat → m T
  permute0213 : T → m T
  transpose : T → m T
  cont : T → m T
  cont2d : T → Nat → Nat → m T
  softMaxExt : T → M → Nat → m T

namespace GgmlOps

variable {m : Type → Type} [Monad m] {T I M : Type} (g : GgmlOps m T I M)

-- ---------------------------------------------------------------------------
-- The builders
-- ---------------------------------------------------------------------------

def bertLayernorm (x : T) (weight bias : GgufTensor) (eps : CFloat) : m T := do
  let normed ← g.norm x eps
  let scaled ← g.mul normed (g.weight weight)
  g.add scaled (g.weight bias)

def project (weight bias : GgufTensor) (x : T) : m T := do
  let y ← g.mulMat (g.weight weight) x
  g.add y (g.weight bias)

def bertSplitHeads (t : T) (nEmbd nHead seqLen batch : Nat) : m T := do
  let headDim := nEmbd / nHead
  let t4 ← g.reshape4d t headDim nHead seqLen batch
  let permuted ← g.permute0213 t4
  g.cont permuted

def bertAttention (q k v : T) (mask : M) (nEmbd nHead seqLen batch : Nat) : m T := do
  let headDim := nEmbd / nHead
  let kq ← g.mulMat k q
  let kq ← g.softMaxExt kq mask headDim
  let transposed ← g.transpose v
  let vT ← g.cont transposed
  let kqv ← g.mulMat vT kq
  let merged ← g.permute0213 kqv
  g.cont2d merged nEmbd (seqLen * batch)

def encoderLayer (hp : SpladeHparams) (mask : M) (seqLen batch : Nat) (h : T)
    (L : LayerWeights GgufTensor) : m T := do
  let nEmbd := hp.nEmbd.toNat
  let nHead := hp.nHead.toNat
  let q ← g.project L.qW L.qB h
  let k ← g.project L.kW L.kB h
  let v ← g.project L.vW L.vB h
  let q ← g.bertSplitHeads q nEmbd nHead seqLen batch
  let k ← g.bertSplitHeads k nEmbd nHead seqLen batch
  let v ← g.bertSplitHeads v nEmbd nHead seqLen batch
  let att ← g.bertAttention q k v mask nEmbd nHead seqLen batch
  let att ← g.project L.oW L.oB att
  let att ← g.add att h
  let h ← g.bertLayernorm att L.ln1W L.ln1B hp.eps
  let f ← g.project L.fc1W L.fc1B h
  let f ← g.gelu f
  let f ← g.project L.fc2W L.fc2B f
  let f ← g.add f h
  g.bertLayernorm f L.ln2W L.ln2B hp.eps

def buildBertEncoder (w : Weights) (tokens positions : I) (mask : M) (seqLen batch : Nat) :
    m T := do
  let h ← g.getRows (g.weight w.head.tokEmbd) tokens
  let p ← g.getRows (g.weight w.head.posEmbd) positions
  let h ← g.add h p
  let segment ← g.view1d (g.weight w.head.typeEmbd) w.hparams.nEmbd.toNat
  let h ← g.add h segment
  let h ← g.bertLayernorm h w.head.embdLnW w.head.embdLnB w.hparams.eps
  w.layers.foldlM (g.encoderLayer w.hparams mask seqLen batch) h

def buildMlmHead (w : Weights) (h : T) : m T := do
  let x ← g.project w.head.mlmTransformW w.head.mlmTransformB h
  let x ← g.gelu x
  let x ← g.bertLayernorm x w.head.mlmLnW w.head.mlmLnB w.hparams.eps
  g.project w.head.tokEmbd w.head.mlmBias x

-- ---------------------------------------------------------------------------
-- Over numbers
-- ---------------------------------------------------------------------------

section Values

variable {α : Type} [Field α] [LinearOrder α] (fns : MathFns α)

/-- The calls over exact numbers. -/
def values : GgmlOps Checked (Tensor4 α) (List Int) (Tensor4 (Option α)) where
  weight := GgufTensor.tensor
  getRows := Tensor4.getRows
  add := Tensor4.add
  mul := Tensor4.mul
  mulMat := Tensor4.mulMat
  norm x eps := do
    ensure eps.nonnegative .assertFailed
    return Tensor4.norm (invStd fns eps) x
  gelu x := return x.map fns.gelu
  view1d := Tensor4.view1d
  reshape4d := Tensor4.reshape4d
  permute0213 x := return x.permute0213
  transpose x := return x.transpose
  cont x := return x.cont
  cont2d := Tensor4.cont2d
  softMaxExt x mask headDim := Tensor4.softMaxExt fns.exp x mask (1 / fns.sqrt headDim)

theorem values_bertLayernorm :
    (values fns).bertLayernorm = LibEmbedding.bertLayernorm fns := by
  funext x weight bias eps
  simp only [bertLayernorm, LibEmbedding.bertLayernorm, values, bind_assoc, pure_bind]

theorem values_project : (values fns).project = LibEmbedding.project := rfl

theorem values_bertSplitHeads :
    (values fns).bertSplitHeads = LibEmbedding.bertSplitHeads := by
  funext t nEmbd nHead seqLen batch
  simp only [bertSplitHeads, LibEmbedding.bertSplitHeads, values, pure_bind]

theorem values_bertAttention :
    (values fns).bertAttention = LibEmbedding.bertAttention fns := by
  funext q k v mask nEmbd nHead seqLen batch
  simp only [bertAttention, LibEmbedding.bertAttention, values, pure_bind]

theorem values_encoderLayer :
    (values fns).encoderLayer = LibEmbedding.encoderLayer fns := by
  funext hp mask seqLen batch h L
  simp only [encoderLayer, LibEmbedding.encoderLayer, values_project, values_bertSplitHeads,
    values_bertAttention, values_bertLayernorm]
  simp only [values, pure_bind]

theorem values_buildBertEncoder (w : Weights) (tokens positions : List Int)
    (mask : Tensor4 (Option α)) (seqLen batch : Nat) :
    (values fns).buildBertEncoder w tokens positions mask seqLen batch =
      LibEmbedding.buildBertEncoder fns w tokens positions mask seqLen batch := by
  simp only [buildBertEncoder, LibEmbedding.buildBertEncoder, values_bertLayernorm,
    values_encoderLayer]
  rfl

theorem values_buildMlmHead (w : Weights) :
    (values fns).buildMlmHead w = LibEmbedding.buildMlmHead fns w := by
  funext h
  simp only [buildMlmHead, LibEmbedding.buildMlmHead, values_project, values_bertLayernorm]
  simp only [values, pure_bind]

/-- The builders compute the logits. -/
theorem values_buildLogits (w : Weights) (tokens positions : List Int)
    (mask : Tensor4 (Option α)) (seqLen batch : Nat) :
    ((values fns).buildBertEncoder w tokens positions mask seqLen batch >>=
      (values fns).buildMlmHead w) = buildLogits fns w tokens positions mask seqLen batch := by
  rw [values_buildBertEncoder, values_buildMlmHead]
  rfl

end Values

end GgmlOps

-- ---------------------------------------------------------------------------
-- Over an arena
-- ---------------------------------------------------------------------------

/-- The tensors the context of a graph has room for. -/
def graphTensors : Nat := 2048

/-- `GGML_DEFAULT_GRAPH_SIZE` -/
def defaultGraphSize : Nat := 2048

/-- What a context has handed out: its tensors, and those among them that are the results of
calls. -/
structure Arena where
  tensors : Nat
  nodes : Nat
  deriving DecidableEq, Repr

namespace Arena

def empty : Arena := ⟨0, 0⟩

/-- `ggml_new_tensor`, which asserts that it got an object. -/
def newTensor : StateT Arena Checked Unit := fun a => do
  ensure (a.tensors < graphTensors) .assertFailed
  return ((), { a with tensors := a.tensors + 1 })

/-- The result of a call. -/
def newNode : StateT Arena Checked Unit := do
  newTensor
  modify fun a => { a with nodes := a.nodes + 1 }

/-- The calls as an arena sees them. The weights are in a context of their own. -/
def ops : GgmlOps (StateT Arena Checked) Unit Unit Unit where
  weight _ := ()
  getRows _ _ := newNode
  add _ _ := newNode
  mul _ _ := newNode
  mulMat _ _ := newNode
  norm _ _ := newNode
  gelu _ := newNode
  view1d _ _ := newNode
  reshape4d _ _ _ _ _ := newNode
  permute0213 _ := newNode
  transpose _ := newNode
  cont _ := newNode
  cont2d _ _ _ := newNode
  softMaxExt _ _ _ := newNode

/-- `ggml_build_forward_expand`, which puts the results into the graph. -/
def buildForwardExpand : StateT Arena Checked Unit := fun a => do
  ensure (a.nodes ≤ defaultGraphSize) .assertFailed
  return ((), a)

/-- The graph of `run_graph`: the ids, the positions and the mask, then the two builders. -/
def buildGraph (w : Weights) (seqLen batch : Nat) : StateT Arena Checked Unit := do
  newTensor
  newTensor
  newTensor
  let h ← ops.buildBertEncoder w () () () seqLen batch
  ops.buildMlmHead w h
  buildForwardExpand

/-- The graph is built for every shape of a batch, within both bounds. -/
def Fits (w : Weights) : Prop :=
  ∀ seqLen batch, ∃ a, buildGraph w seqLen batch empty = .ok ((), a) ∧
    a.tensors ≤ graphTensors ∧ a.nodes ≤ defaultGraphSize

-- ---------------------------------------------------------------------------
-- What the builders take
-- ---------------------------------------------------------------------------

/-- The results of `n` calls. -/
def takeNodes (n : Nat) : StateT Arena Checked Unit := fun a =>
  if a.tensors + n ≤ graphTensors then .ok ((), ⟨a.tensors + n, a.nodes + n⟩)
  else .error .assertFailed

theorem newNode_eq : newNode = takeNodes 1 := by
  funext a
  show (newTensor a >>= fun r => _) = _
  unfold newTensor takeNodes ensure
  by_cases h : a.tensors < graphTensors
  · rw [if_pos h, if_pos (Nat.succ_le_of_lt h)]
    rfl
  · rw [if_neg h, if_neg fun hle => h (Nat.lt_of_succ_le hle)]
    rfl

theorem takeNodes_bind (n k : Nat) (f : Unit → StateT Arena Checked β) :
    (takeNodes n >>= fun _ => takeNodes k >>= f) = takeNodes (n + k) >>= f := by
  funext a
  show (takeNodes n a >>= fun r => takeNodes k r.2 >>= fun r => f r.1 r.2) =
    takeNodes (n + k) a >>= fun r => f r.1 r.2
  unfold takeNodes
  by_cases hn : a.tensors + n ≤ graphTensors
  · by_cases hk : a.tensors + n + k ≤ graphTensors
    · have hsum : a.tensors + (n + k) ≤ graphTensors := by omega
      rw [if_pos hn, if_pos hsum, ok_bind, if_pos hk, Nat.add_assoc, Nat.add_assoc]
    · have hsum : ¬a.tensors + (n + k) ≤ graphTensors := by omega
      rw [if_pos hn, if_neg hsum, ok_bind, if_neg hk]
  · have hsum : ¬a.tensors + (n + k) ≤ graphTensors := by omega
    rw [if_neg hn, if_neg hsum]
    rfl

theorem takeNodes_then (n k : Nat) :
    (takeNodes n >>= fun _ => takeNodes k) = takeNodes (n + k) := by
  have h := takeNodes_bind n k pure
  rwa [bind_pure, bind_pure] at h

theorem bertLayernorm_takes (x : Unit) (weight bias : GgufTensor) (eps : CFloat) :
    ops.bertLayernorm x weight bias eps = takeNodes 3 := by
  simp only [GgmlOps.bertLayernorm, ops, newNode_eq, takeNodes_then]

theorem project_takes (weight bias : GgufTensor) (x : Unit) :
    ops.project weight bias x = takeNodes 2 := by
  simp only [GgmlOps.project, ops, newNode_eq, takeNodes_then]

theorem bertSplitHeads_takes (t : Unit) (nEmbd nHead seqLen batch : Nat) :
    ops.bertSplitHeads t nEmbd nHead seqLen batch = takeNodes 3 := by
  simp only [GgmlOps.bertSplitHeads, ops, newNode_eq, takeNodes_then]

theorem bertAttention_takes (q k v mask : Unit) (nEmbd nHead seqLen batch : Nat) :
    ops.bertAttention q k v mask nEmbd nHead seqLen batch = takeNodes 7 := by
  simp only [GgmlOps.bertAttention, ops, newNode_eq, takeNodes_then]

theorem encoderLayer_takes (hp : SpladeHparams) (mask : Unit) (seqLen batch : Nat) (h : Unit)
    (L : LayerWeights GgufTensor) :
    ops.encoderLayer hp mask seqLen batch h L = takeNodes 37 := by
  have hadd (x y : Unit) : ops.add x y = takeNodes 1 := newNode_eq
  have hgelu (x : Unit) : ops.gelu x = takeNodes 1 := newNode_eq
  simp only [GgmlOps.encoderLayer, project_takes, bertSplitHeads_takes, bertAttention_takes,
    bertLayernorm_takes, hadd, hgelu, takeNodes_then]

/-- The layers take as many nodes each. -/
theorem layers_take (hp : SpladeHparams) (mask : Unit) (seqLen batch n : Nat)
    (layers : List (LayerWeights GgufTensor)) :
    (takeNodes n >>= fun h => layers.foldlM (ops.encoderLayer hp mask seqLen batch) h) =
      takeNodes (n + 37 * layers.length) := by
  induction layers generalizing n with
  | nil => exact bind_pure _
  | cons L layers ih =>
    have hcount : n + 37 * (L :: layers).length = n + 37 + 37 * layers.length := by
      rw [List.length_cons]
      omega
    rw [hcount, ← ih, ← takeNodes_bind]
    simp only [List.foldlM_cons, encoderLayer_takes]

theorem buildBertEncoder_takes (w : Weights) (seqLen batch : Nat) :
    ops.buildBertEncoder w () () () seqLen batch = takeNodes (8 + 37 * w.layers.length) := by
  have hrows (x : Unit) : ops.getRows x () = takeNodes 1 := newNode_eq
  have hadd (x y : Unit) : ops.add x y = takeNodes 1 := newNode_eq
  have hview (x : Unit) (n : Nat) : ops.view1d x n = takeNodes 1 := newNode_eq
  have hcount : 1 + (1 + (1 + (1 + 1))) + (3 + 37 * w.layers.length) =
      8 + 37 * w.layers.length := by omega
  simp only [GgmlOps.buildBertEncoder, hrows, hadd, hview, bertLayernorm_takes, takeNodes_bind,
    layers_take]
  rw [takeNodes_then, hcount]

theorem buildMlmHead_takes (w : Weights) (h : Unit) : ops.buildMlmHead w h = takeNodes 8 := by
  have hgelu (x : Unit) : ops.gelu x = takeNodes 1 := newNode_eq
  simp only [GgmlOps.buildMlmHead, project_takes, hgelu, bertLayernorm_takes, takeNodes_then]

/-- The three inputs and what the builders take decide alone. -/
theorem fits_iff (w : Weights) : Fits w ↔ 19 + 37 * w.layers.length ≤ graphTensors := by
  have hinputs : ∀ f : StateT Arena Checked Unit,
      (newTensor >>= fun _ => newTensor >>= fun _ => newTensor >>= fun _ => f) empty =
        f ⟨3, 0⟩ := fun _ => rfl
  have hbuild (seqLen batch : Nat) : buildGraph w seqLen batch empty =
      (takeNodes (16 + 37 * w.layers.length) >>= fun _ => buildForwardExpand) ⟨3, 0⟩ := by
    have hcount : 8 + 37 * w.layers.length + 8 = 16 + 37 * w.layers.length := by omega
    unfold buildGraph
    rw [hinputs, buildBertEncoder_takes]
    simp only [buildMlmHead_takes, takeNodes_bind, hcount]
  unfold Fits
  simp only [hbuild]
  have hrun : (takeNodes (16 + 37 * w.layers.length) >>= fun _ => buildForwardExpand) ⟨3, 0⟩ =
      if 3 + (16 + 37 * w.layers.length) ≤ graphTensors then
        buildForwardExpand ⟨3 + (16 + 37 * w.layers.length), 0 + (16 + 37 * w.layers.length)⟩
      else .error .assertFailed := by
    show (takeNodes _ ⟨3, 0⟩ >>= fun r => buildForwardExpand r.2) = _
    unfold takeNodes
    split <;> rfl
  rw [hrun]
  constructor
  · intro h
    obtain ⟨a, ha, -, -⟩ := h 0 0
    split at ha
    · omega
    · cases ha
  · intro hle seqLen batch
    have hnodes : 0 + (16 + 37 * w.layers.length) ≤ defaultGraphSize := by
      show _ ≤ graphTensors
      omega
    have hfits : 3 + (16 + 37 * w.layers.length) ≤ graphTensors := by omega
    refine ⟨⟨3 + (16 + 37 * w.layers.length), 0 + (16 + 37 * w.layers.length)⟩, ?_, hfits,
      hnodes⟩
    rw [if_pos hfits]
    show (ensure _ .assertFailed >>= fun _ => _) = _
    rw [ensure_pos hnodes]
    rfl

/-- The graph of an accepted file fits its arena exactly when it has at most 54 layers. -/
theorem graph_fits_iff {s s' : SparseSession} {path : Option Bytes} {header : GgufHeader}
    {env : LoadEnv} {maxLength : Int} {w : Weights}
    (hload : s.loadFromFile path (some header) env maxLength = (.ok (), s'))
    (hw : s'.weights = some w) : Fits w ↔ w.hparams.nLayer ≤ 54 := by
  obtain ⟨o, tokens, -, hloaded, -⟩ := SparseSession.loadFromFile_loaded hload
  obtain rfl := Option.some.inj (hloaded.weights.symm.trans hw)
  have hlayers : o.weights.layers.length = o.weights.hparams.nLayer.toNat := by
    simp only [OpenWeights.weights, List.length_map, List.length_range]
  rw [fits_iff, hlayers, graphTensors]
  omega

theorem graph_fits_iff_sample : ∃ s' w,
    SparseSession.new.loadFromFile (some (ascii "a.gguf")) (some (sampleHeader [] 4)) .ample 0 =
      (.ok (), s') ∧ s'.weights = some w ∧ Fits w := by
  obtain ⟨s', hload⟩ : ∃ s', SparseSession.new.loadFromFile (some (ascii "a.gguf"))
      (some (sampleHeader [] 4)) .ample 0 = (.ok (), s') := ⟨_, Prod.ext sample_loads rfl⟩
  obtain ⟨o, _, hopened, hloaded, -⟩ := SparseSession.loadFromFile_loaded hload
  refine ⟨s', o.weights, hload, hloaded.weights, (graph_fits_iff hload hloaded.weights).mpr ?_⟩
  have hread := readHparams_ok.mpr hopened.hparams
  rw [← hopened.file, sample_hparams] at hread
  show o.hparams.nLayer ≤ 54
  rw [← Except.ok.inj hread]
  decide

-- ---------------------------------------------------------------------------
-- A deep file
-- ---------------------------------------------------------------------------

/-- The sample with more layers. -/
def deepHeader (nLayer : UInt32) : GgufHeader where
  key name :=
    if name = ascii "bert.block_count" then some (.uint32 nLayer)
    else (sampleHeader [] 4).key name
  tensor name :=
    if name ∈ requiredNames nLayer.toNat then
      some ⟨.f32, 1, if name = ascii "position_embd.weight" then 4 else 1, 1, 1, true,
        fun _ _ _ _ => 1⟩
    else none
  nTensors := 10 + 16 * nLayer.toNat

theorem deep_stored {nLayer : UInt32} (h : name ∈ requiredNames nLayer.toNat) :
    (deepHeader nLayer).stored name = ⟨.f32, 1,
      if name = ascii "position_embd.weight" then 4 else 1, 1, 1, true, fun _ _ _ _ => 1⟩ := by
  simp only [GgufHeader.stored, deepHeader, if_pos h, Option.getD_some]

theorem deep_opened : Opened (some (ascii "a.gguf")) (some (deepHeader 55)) .ample
    ⟨deepHeader 55, { sampleHparams with nLayer := 55 },
      readSpecialIds (some (deepHeader 55)) 1⟩ [ascii "a"] := by
  have htype : ascii "token_type_embd.weight" ∈ requiredNames (55 : UInt32).toNat := by
    simp [requiredNames, embeddingNames]
  constructor
  case path => decide
  case file => rfl
  case hparams => exact readHparams_ok.mp (by decide +kernel)
  case specialIds => rfl
  case accepted =>
    have haccept : accept (some (deepHeader 55)) = .ok () := by decide +kernel
    exact (accept_ok.mp haccept).2
  case holds => exact fun name hname => ⟨_, if_pos hname, rfl, rfl⟩
  case backend => rfl
  case context => rfl
  case buffer => rfl
  case typeF32 => rw [OpenWeights.weights_typeEmbd, deep_stored htype]
  case typeRows =>
    rw [OpenWeights.weights_nType, OpenWeights.weights_typeEmbd, deep_stored htype]
    decide +kernel
  case listed => decide +kernel
  case known => decide +kernel
  case size => rfl

/-- Nothing that a load checks bounds the number of layers. -/
theorem graph_outgrows_arena : ¬∀ (s s' : SparseSession) (path : Option Bytes)
    (header : GgufHeader) (env : LoadEnv) (maxLength : Int) (w : Weights),
      s.loadFromFile path (some header) env maxLength = (.ok (), s') → s'.weights = some w →
        Fits w := by
  intro h
  obtain ⟨tok, -, hload⟩ := SparseSession.new.loadFromFile_opened 0 deep_opened
  have hfits := h _ _ _ _ _ _ _ hload rfl
  rw [fits_iff] at hfits
  revert hfits
  simp only [OpenWeights.weights, List.length_map, List.length_range, graphTensors]
  decide

end Arena

end LibEmbedding
