import LibEmbedding.DenseUnit
import LibEmbedding.TextEmbedding

/-!
# Image embedding

`image_embedding.h`: one path embeds image files, one embeds images in memory. Decoding and
scaling an image and running the model are parameters.
-/

namespace LibEmbedding

open Foundation

/-- The size every creator sets. -/
def targetSize : Nat := 224

/-- The places of an image, `3 * ts * ts`. -/
def pixelCount : Nat := 3 * targetSize * targetSize

/-- What the preprocessing makes of an image. -/
abbrev Pixels := { data : List ℚ // data.length = pixelCount }

/-- The disk, the decoder with the scaling that follows it, and the session: its `run` gets
the name, the data and the shape of the input. -/
structure ImageModel where
  files : Bytes → Option Bytes
  decode : Bytes → Option Pixels
  inputNames : List Bytes
  inputNamesNonempty : inputNames ≠ []
  run : Bytes → List ℚ → List Nat → Outcome (List (Tensor ℚ))
  sqrt : ExactSqrt

/-- `lembed_image_embedding`. Every creator replaces a nonpositive batch size by the
default one. -/
structure ImageEmbedding where
  dim : Nat
  dimPos : 0 < dim
  batchSize : Int
  batchSizePos : 0 < batchSize
  textsEmbedded : Nat
  batchesRun : Nat
  statsCalls : Nat
  deriving DecidableEq

namespace ImageModel

-- ---------------------------------------------------------------------------
-- The input of a run
-- ---------------------------------------------------------------------------

/-- `preprocess_image_to_buffer` of `file_paths[i]` -/
def loadFile (m : ImageModel) (paths : List Bytes) (i : Nat) : Checked (Outcome Pixels) := do
  let path ← get paths i
  match (m.files path).bind m.decode with
  | none => return .threw
  | some pixels => return .returned pixels

/-- `preprocess_image_bytes_to_buffer` of `image_data[i]` -/
def loadBytes (m : ImageModel) (images : List Bytes) (i : Nat) : Checked (Outcome Pixels) := do
  let image ← get images i
  match m.decode image with
  | none => return .threw
  | some pixels => return .returned pixels

/-- `i * 3 * ts * ts`, an `int`. -/
def pixelOffset (i : Nat) : Checked Nat := do
  let planes ← mulInt i 3
  let rows ← mulInt planes targetSize
  let offset ← mulInt rows targetSize
  return offset.toNat

def fillImage (load : Nat → Checked (Outcome Pixels)) (start : Nat) (s : Outcome (List ℚ))
    (i : Nat) : Checked (Outcome (List ℚ)) :=
  match s with
  | .threw => .ok .threw
  | .returned batchData => do
    let offset ← pixelOffset i
    match ← load (start + i) with
    | .threw => return .threw
    | .returned pixels =>
      let batchData ← writeAt batchData offset pixels.val
      return .returned batchData

/-- `batch_data` -/
def fillBatch (load : Nat → Checked (Outcome Pixels)) (start bsz : Nat) :
    Checked (Outcome (List ℚ)) := do
  let size ← pixelOffset bsz
  forUpTo bsz (fillImage load start) (.returned (List.replicate size 0))

def inputName (m : ImageModel) : Checked Bytes :=
  if ascii "pixel_values" ∈ m.inputNames then .ok (ascii "pixel_values")
  else if ascii "input" ∈ m.inputNames then .ok (ascii "input")
  else get m.inputNames 0

/-- The number of images of a batch, and its output. -/
def runBatch (m : ImageModel) (load : Nat → Checked (Outcome Pixels)) (n : Nat) (batchSize : Int)
    (bi : Nat) : Checked (Outcome (Nat × Tensor ℚ)) := do
  let range ← getBatch bi n batchSize
  let start := range.start.toNat
  let bsz := (range.stop - range.start).toNat
  match ← fillBatch load start bsz with
  | .threw => return .threw
  | .returned batchData =>
    let name ← m.inputName
    match m.run name batchData [bsz, 3, targetSize, targetSize] with
    | .threw => return .threw
    | .returned outputs =>
      let output ← get outputs 0
      return .returned (bsz, output)

-- ---------------------------------------------------------------------------
-- The loops
-- ---------------------------------------------------------------------------

/-- Normalises rows of `outDim`, and copies rows of `dim` to the result, whose next row is
`outOffset`. -/
def storeBatch (m : ImageModel) (dim outDim : Nat) (s : List ℚ × Nat) (bsz : Nat)
    (output : Tensor ℚ) : Checked (List ℚ × Nat) := do
  let (resultData, outOffset) := s
  let normalized ← l2Normalize m.sqrt.sqrt output.data bsz outDim
  intOffset outOffset dim
  let rows ← readAt normalized 0 (bsz * dim)
  let resultData ← writeAt resultData (outOffset * dim) rows
  let next ← addInt outOffset bsz
  return (resultData, next.toNat)

/-- One batch of either path. They differ in how an image is loaded, and in the row length
`outDim` they normalise with. -/
def embedBatch (m : ImageModel) (dim : Nat) (outDim : List Nat → Nat)
    (load : Nat → Checked (Outcome Pixels)) (n : Nat) (batchSize : Int)
    (s : Outcome (List ℚ × Nat)) (bi : Nat) : Checked (Outcome (List ℚ × Nat)) :=
  match s with
  | .threw => .ok .threw
  | .returned s => do
    match ← m.runBatch load n batchSize bi with
    | .threw => return .threw
    | .returned (bsz, output) =>
      let s ← m.storeBatch dim (outDim output.shape) s bsz output
      return .returned s

/-- The result matrix and the number of batches. -/
def embedBatches (m : ImageModel) (dim : Nat) (outDim : List Nat → Nat)
    (load : Nat → Checked (Outcome Pixels)) (n : Nat) (batchSize : Int) :
    Checked (Outcome (List ℚ) × Nat) := do
  let numBatches ← batchCount n batchSize
  match ← forUpTo numBatches.toNat (m.embedBatch dim outDim load n batchSize)
      (.returned (malloc (n * dim), 0)) with
  | .threw => return (.threw, numBatches.toNat)
  | .returned (resultData, _) => return (.returned resultData, numBatches.toNat)

end ImageModel

namespace ImageEmbedding

/-- The part of the creators that sets what `embed` reads. -/
def create (dim : Nat) (dimPos : 0 < dim) (batchSize : Int) : ImageEmbedding where
  dim
  dimPos
  batchSize := if 0 < batchSize then batchSize else defaultBatchSize
  batchSizePos := createdBatchSize_pos batchSize
  textsEmbedded := 0
  batchesRun := 0
  statsCalls := 0

/-- The last entry of a shape of two or more, else the dimension of the context. -/
def outDim (ctx : ImageEmbedding) (shape : List Nat) : Nat :=
  if 2 ≤ shape.length then shape.getLastD ctx.dim else ctx.dim

/-- The batch size a call runs with. -/
def callSize (ctx : ImageEmbedding) (batchSize : Int) : Int :=
  if batchSize ≤ 0 then ctx.batchSize else batchSize

/-- The reply of a call on `n` images whose loop ended with `resultData`. -/
def reply (ctx : ImageEmbedding) (n : Nat) : Outcome (List ℚ) → EmbedReply ℚ
  | .threw => ⟨.onnxRuntime, some ⟨none, n, ctx.dim⟩⟩
  | .returned resultData => ⟨.ok, some ⟨some resultData, n, ctx.dim⟩⟩

/-- `lembed_image_embedding_embed_files` leaves the counters alone. -/
def embedFiles (ctx : ImageEmbedding) (m : ImageModel) (paths : List Bytes) (batchSize : Int) :
    Checked (EmbedReply ℚ × ImageEmbedding) :=
  if paths.length = 0 then .ok (⟨.invalidArgument, none⟩, ctx)
  else do
    let (result, _) ← m.embedBatches ctx.dim ctx.outDim (m.loadFile paths) paths.length
      (ctx.callSize batchSize)
    return (ctx.reply paths.length result, ctx)

/-- What a successful call adds to the counters. -/
def count (ctx : ImageEmbedding) (n numBatches : Nat) : ImageEmbedding :=
  { ctx with textsEmbedded := ctx.textsEmbedded + n
             batchesRun := ctx.batchesRun + numBatches
             statsCalls := ctx.statsCalls + 1 }

def embedBytes (ctx : ImageEmbedding) (m : ImageModel) (images : List Bytes) (batchSize : Int) :
    Checked (EmbedReply ℚ × ImageEmbedding) :=
  if images.length = 0 then .ok (⟨.invalidArgument, none⟩, ctx)
  else do
    let (result, numBatches) ← m.embedBatches ctx.dim (fun _ => ctx.dim) (m.loadBytes images)
      images.length (ctx.callSize batchSize)
    match result with
    | .threw => return (ctx.reply images.length result, ctx)
    | .returned _ => return (ctx.reply images.length result, ctx.count images.length numBatches)

theorem callSize_pos (ctx : ImageEmbedding) (batchSize : Int) : 0 < ctx.callSize batchSize := by
  unfold callSize
  split
  · exact ctx.batchSizePos
  · omega

end ImageEmbedding

end LibEmbedding
